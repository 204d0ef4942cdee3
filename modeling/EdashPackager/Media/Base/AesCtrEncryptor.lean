import EdashPackager.Media.Base.AesEncryptor

/-!
# AES counter mode

`AesCtrEncryptor` keeps a 16-byte counter block, the keystream block of the counter block in
use, and the offset reached within it. `SetIvInternal` loads the IV into the counter and
`CryptInternal` XORs the keystream into each buffer. The offset and the keystream block
survive from one call to the next, so the calls of a sample share one keystream. It is given
here by `keystreamByte`. Byte `j` comes from the counter block whose low half is the IV's low
half plus `⌊j / 16⌋`, taken modulo `2 ^ 64`.

`CtrInv` is the loop invariant of `CryptInternal` after `n` bytes of a sample. From it,
the bytes a sequence of calls writes are those of one call on the whole sample.
-/

namespace EdashPackager.Media

/-- The fields of an `AesCtrEncryptor` that `SetIvInternal` and `CryptInternal` use. -/
structure AesCtrEncryptor where
  blockOffset : Nat
  counter : List Byte
  encryptedCounter : List Byte
  deriving DecidableEq, Repr

namespace AesCtrEncryptor

/-- `AesCtrEncryptor()`: offset zero, no counter and a zero keystream block. -/
def new : AesCtrEncryptor := ⟨0, [], List.replicate 16 0⟩

/-- `AesCtrEncryptor::SetIvInternal`, for `iv` the IV held by the base class. -/
def setIvInternal (s : AesCtrEncryptor) (iv : List Byte) : AesCtrEncryptor :=
  { s with blockOffset := 0, counter := resize iv 16 0 }

/-- One turn of the `CryptInternal` loop; at offset zero it first makes a keystream block and
increments the counter. -/
def cryptByte (E : BlockCipher) (s : AesCtrEncryptor) (b : Byte) : Byte × AesCtrEncryptor :=
  let s := if s.blockOffset = 0 then
      { s with encryptedCounter := E.encrypt s.counter, counter := (increment64 s.counter 8).1 }
    else s
  (b ^^^ s.encryptedCounter.getD s.blockOffset 0,
    { s with blockOffset := (s.blockOffset + 1) % 16 })

def cryptLoop (E : BlockCipher) : AesCtrEncryptor → List Byte → List Byte × AesCtrEncryptor
  | s, [] => ([], s)
  | s, b :: bs =>
    let r := s.cryptByte E b
    let rest := cryptLoop E r.2 bs
    (r.1 :: rest.1, rest.2)

/-- `AesCtrEncryptor::CryptInternal`: refused when the output buffer is shorter than the
plaintext. -/
def cryptInternal (E : BlockCipher) (s : AesCtrEncryptor) (plaintext : List Byte)
    (ciphertextSize : Nat) : Option (List Byte × AesCtrEncryptor) :=
  if ciphertextSize < plaintext.length then none else some (cryptLoop E s plaintext)

end AesCtrEncryptor

/-! ### The keystream of a sample -/

/-- The counter block of block `k` of a sample: the first 8 bytes of the IV zero-extended to
16 bytes, then its last 8 bytes read big-endian, plus `k`, modulo `2 ^ 64`. -/
def counterBlock (iv : List Byte) (k : Nat) : List Byte :=
  (resize iv 16 0).take 8 ++ toBE 8 ((ofBE ((resize iv 16 0).drop 8) + k) % 2 ^ 64)

def keystreamByte (E : BlockCipher) (iv : List Byte) (j : Nat) : Byte :=
  (E.encrypt (counterBlock iv (j / 16))).getD (j % 16) 0

/-- `d` XORed with the keystream from byte `n` on. -/
def xorKeystream (E : BlockCipher) (iv : List Byte) : Nat → List Byte → List Byte
  | _, [] => []
  | n, b :: bs => (b ^^^ keystreamByte E iv n) :: xorKeystream E iv (n + 1) bs

/-- Buffers XORed in turn with the keystream, from position `n` on. -/
def xorKeystreamPieces (E : BlockCipher) (iv : List Byte) : Nat → List (List Byte) → List (List Byte)
  | _, [] => []
  | n, p :: ps => xorKeystream E iv n p :: xorKeystreamPieces E iv (n + p.length) ps

section Keystream

variable (E : BlockCipher) (iv : List Byte)

@[simp] lemma length_xorKeystream (n : Nat) (d : List Byte) :
    (xorKeystream E iv n d).length = d.length := by
  induction d generalizing n <;> simp [xorKeystream, *]

lemma xorKeystream_append (n : Nat) (a b : List Byte) :
    xorKeystream E iv n (a ++ b) = xorKeystream E iv n a ++ xorKeystream E iv (n + a.length) b := by
  induction a generalizing n with
  | nil => rfl
  | cons x a ih => simp [xorKeystream, ih, Nat.add_assoc, Nat.add_comm 1]

lemma xorKeystream_xorKeystream (n : Nat) (d : List Byte) :
    xorKeystream E iv n (xorKeystream E iv n d) = d := by
  induction d generalizing n with
  | nil => rfl
  | cons b d ih => simp [xorKeystream, ih, BitVec.xor_assoc]

lemma getD_xorKeystream (n : Nat) (d : List Byte) {j : Nat} (hj : j < d.length) :
    (xorKeystream E iv n d).getD j 0 = d.getD j 0 ^^^ keystreamByte E iv (n + j) := by
  induction d generalizing n j with
  | nil => simp at hj
  | cons b d ih =>
    cases j with
    | zero => rfl
    | succ j =>
      simp only [xorKeystream, List.getD_cons_succ]
      rw [ih _ (by simpa using hj), Nat.add_assoc, Nat.add_comm 1 j]

lemma flatten_xorKeystreamPieces (n : Nat) (ps : List (List Byte)) :
    (xorKeystreamPieces E iv n ps).flatten = xorKeystream E iv n ps.flatten := by
  induction ps generalizing n with
  | nil => rfl
  | cons p ps ih => simp [xorKeystreamPieces, ih, xorKeystream_append]

lemma xorKeystreamPieces_xorKeystreamPieces (n : Nat) (ps : List (List Byte)) :
    xorKeystreamPieces E iv n (xorKeystreamPieces E iv n ps) = ps := by
  induction ps generalizing n with
  | nil => rfl
  | cons p ps ih => simp [xorKeystreamPieces, ih, xorKeystream_xorKeystream]

lemma xorKeystreamPieces_fit (n : Nat) (calls : List (List Byte × Nat))
    (hsize : ∀ c ∈ calls, c.1.length ≤ c.2) :
    ∀ c ∈ (xorKeystreamPieces E iv n (calls.map Prod.fst)).zip (calls.map Prod.snd),
      c.1.length ≤ c.2 := by
  induction calls generalizing n with
  | nil => simp [xorKeystreamPieces]
  | cons call calls ih =>
    simp only [List.map_cons, xorKeystreamPieces, List.zip_cons_cons, List.mem_cons,
      forall_eq_or_imp, length_xorKeystream]
    exact ⟨hsize call (List.mem_cons_self _ _),
      ih _ fun c hc => hsize c (List.mem_cons_of_mem _ hc)⟩

@[simp] lemma length_xorKeystreamPieces (n : Nat) (ps : List (List Byte)) :
    (xorKeystreamPieces E iv n ps).length = ps.length := by
  induction ps generalizing n <;> simp [xorKeystreamPieces, *]

lemma length_counterBlock (k : Nat) : (counterBlock iv k).length = 16 := by
  simp [counterBlock]

lemma take_counterBlock (k : Nat) : (counterBlock iv k).take 8 = (resize iv 16 0).take 8 :=
  List.take_left' (by simp)

lemma ofBE_drop_counterBlock (k : Nat) :
    ofBE ((counterBlock iv k).drop 8) = (ofBE ((resize iv 16 0).drop 8) + k) % 2 ^ 64 := by
  rw [counterBlock, List.drop_left' (by simp), ofBE_toBE, show (256 : Nat) ^ 8 = 2 ^ 64 by decide,
    Nat.mod_mod]

/-- Two blocks share a counter block exactly when their indices agree modulo `2 ^ 64`. -/
lemma counterBlock_eq_iff (k k' : Nat) :
    counterBlock iv k = counterBlock iv k' ↔ k % 2 ^ 64 = k' % 2 ^ 64 := by
  constructor
  · intro h
    have hlow := congrArg (fun b => ofBE (b.drop 8)) h
    simp only [ofBE_drop_counterBlock] at hlow
    omega
  · intro h
    rw [counterBlock, counterBlock, Nat.add_mod, h, ← Nat.add_mod]

/-- `Increment64` on the low half of a counter block gives the next counter block. -/
lemma increment64_counterBlock (k : Nat) :
    (increment64 (counterBlock iv k) 8).1 = counterBlock iv (k + 1) := by
  have hhi : ((resize iv 16 0).take 8).length = 8 := by simp
  have hlo := increment64Loop_eq ((resize iv 16 0).take 8)
    (toBE 8 ((ofBE ((resize iv 16 0).drop 8) + k) % 2 ^ 64)) []
  simp only [List.append_nil, length_toBE, hhi] at hlo
  rw [increment64, counterBlock, hlo, ofBE_toBE, show (256 : Nat) ^ 8 = 2 ^ 64 by decide,
    Nat.mod_mod, Nat.mod_add_mod, counterBlock, Nat.add_assoc]

end Keystream

/-! ### The invariant of `CryptInternal` -/

/-- The state after `n` bytes of a sample with IV `iv`: the loop invariant of `CryptInternal`. -/
structure CtrInv (E : BlockCipher) (iv : List Byte) (n : Nat) (s : AesCtrEncryptor) : Prop where
  blockOffset_eq : s.blockOffset = n % 16
  counter_eq : s.counter = counterBlock iv ((n + 15) / 16)
  encryptedCounter_eq : n % 16 ≠ 0 → s.encryptedCounter = E.encrypt (counterBlock iv (n / 16))

section Invariant

variable {E : BlockCipher} {iv : List Byte}

lemma ctrInv_setIvInternal (E : BlockCipher) (s : AesCtrEncryptor) (iv : List Byte) :
    CtrInv E iv 0 (s.setIvInternal iv) := by
  refine ⟨rfl, ?_, fun h => absurd rfl h⟩
  have hlo : ((resize iv 16 0).drop 8).length = 8 := by simp
  have hlt := ofBE_lt ((resize iv 16 0).drop 8)
  have hround := toBE_ofBE ((resize iv 16 0).drop 8)
  rw [hlo, show (256 : Nat) ^ 8 = 2 ^ 64 by decide] at hlt
  rw [hlo] at hround
  show resize iv 16 0 = counterBlock iv 0
  rw [counterBlock, Nat.add_zero, Nat.mod_eq_of_lt hlt, hround, List.take_append_drop]

lemma cryptByte_of_blockOffset_eq_zero {s : AesCtrEncryptor} (h : s.blockOffset = 0) (b : Byte) :
    s.cryptByte E b = (b ^^^ (E.encrypt s.counter).getD 0 0,
      ⟨1, (increment64 s.counter 8).1, E.encrypt s.counter⟩) := by
  simp [AesCtrEncryptor.cryptByte, h]

lemma cryptByte_of_blockOffset_ne_zero {s : AesCtrEncryptor} (h : s.blockOffset ≠ 0) (b : Byte) :
    s.cryptByte E b = (b ^^^ s.encryptedCounter.getD s.blockOffset 0,
      ⟨(s.blockOffset + 1) % 16, s.counter, s.encryptedCounter⟩) := by
  simp [AesCtrEncryptor.cryptByte, h]

/-- One turn of the loop: the keystream byte of position `n`, and the invariant at `n + 1`. -/
lemma CtrInv.cryptByte {n : Nat} {s : AesCtrEncryptor} (h : CtrInv E iv n s) (b : Byte) :
    (s.cryptByte E b).1 = b ^^^ keystreamByte E iv n ∧ CtrInv E iv (n + 1) (s.cryptByte E b).2 := by
  by_cases hz : n % 16 = 0
  · have hk : (n + 15) / 16 = n / 16 := by omega
    rw [cryptByte_of_blockOffset_eq_zero (h.blockOffset_eq.trans hz), h.counter_eq, hk,
      increment64_counterBlock]
    refine ⟨by rw [keystreamByte, hz], by dsimp only; omega, ?_, fun _ => ?_⟩
    · dsimp only; congr 1; omega
    · dsimp only; congr 2; omega
  · rw [cryptByte_of_blockOffset_ne_zero (h.blockOffset_eq ▸ hz), h.blockOffset_eq,
      h.encryptedCounter_eq hz, h.counter_eq]
    refine ⟨rfl, by dsimp only; omega, ?_, fun _ => ?_⟩
    · dsimp only; congr 1; omega
    · dsimp only; congr 2; omega

/-- The loop over a buffer: the keystream from position `n` on, and the invariant after it. -/
lemma CtrInv.cryptLoop {n : Nat} {s : AesCtrEncryptor} (h : CtrInv E iv n s) (p : List Byte) :
    (s.cryptLoop E p).1 = xorKeystream E iv n p ∧ CtrInv E iv (n + p.length) (s.cryptLoop E p).2 := by
  induction p generalizing n s with
  | nil => exact ⟨rfl, h⟩
  | cons b p ih =>
    obtain ⟨hb, h1⟩ := h.cryptByte b
    obtain ⟨hp, h2⟩ := ih h1
    refine ⟨by simp [AesCtrEncryptor.cryptLoop, hb, hp, xorKeystream], ?_⟩
    simpa [AesCtrEncryptor.cryptLoop, Nat.add_assoc, Nat.add_comm 1] using h2

/-- Calls carried out write the keystream from position `n` on and keep the invariant. -/
lemma CtrInv.cryptCalls_spec {n : Nat} {s s' : AesCtrEncryptor} (h : CtrInv E iv n s)
    {calls : List (List Byte × Nat)} {outs : List (List Byte)}
    (hrun : cryptCalls (AesCtrEncryptor.cryptInternal E) s calls = some (outs, s')) :
    outs = xorKeystreamPieces E iv n (calls.map Prod.fst) ∧ CtrInv E iv (n + callBytes calls) s' := by
  induction calls generalizing n s outs with
  | nil =>
    simp only [cryptCalls_nil, Option.some.injEq, Prod.mk.injEq] at hrun
    obtain ⟨rfl, rfl⟩ := hrun
    exact ⟨rfl, h⟩
  | cons call calls ih =>
    obtain ⟨p, size⟩ := call
    by_cases hs : size < p.length
    · rw [cryptCalls_cons_of_none _ (by simp [AesCtrEncryptor.cryptInternal, hs])] at hrun
      cases hrun
    · have hcall : AesCtrEncryptor.cryptInternal E s p size = some (s.cryptLoop E p) := by
        simp [AesCtrEncryptor.cryptInternal, hs]
      rw [cryptCalls_cons_of_eq _ hcall] at hrun
      obtain ⟨⟨outs', s''⟩, hrest, hmap⟩ := Option.map_eq_some'.mp hrun
      cases hmap
      obtain ⟨hp, h1⟩ := h.cryptLoop p
      obtain ⟨hj, h2⟩ := ih h1 hrest
      exact ⟨by simp [hp, hj, xorKeystreamPieces], by simpa [Nat.add_assoc] using h2⟩

/-- Calls whose output buffers have room for their plaintexts are all carried out. -/
lemma cryptCalls_isSome (s : AesCtrEncryptor) (calls : List (List Byte × Nat))
    (hsize : ∀ c ∈ calls, c.1.length ≤ c.2) :
    ∃ outs s', cryptCalls (AesCtrEncryptor.cryptInternal E) s calls = some (outs, s') := by
  induction calls generalizing s with
  | nil => exact ⟨[], s, rfl⟩
  | cons call calls ih =>
    obtain ⟨p, size⟩ := call
    have hcall : AesCtrEncryptor.cryptInternal E s p size = some (s.cryptLoop E p) := by
      simp [AesCtrEncryptor.cryptInternal, hsize (p, size) (List.mem_cons_self _ _)]
    obtain ⟨outs, s', hrest⟩ := ih (s.cryptLoop E p).2 fun c hc => hsize c (List.mem_cons_of_mem _ hc)
    exact ⟨_, _, by rw [cryptCalls_cons_of_eq _ hcall, hrest]; rfl⟩

lemma cryptCalls_setIvInternal (s : AesCtrEncryptor) (calls : List (List Byte × Nat))
    (hsize : ∀ c ∈ calls, c.1.length ≤ c.2) :
    ∃ s', cryptCalls (AesCtrEncryptor.cryptInternal E) (s.setIvInternal iv) calls =
      some (xorKeystreamPieces E iv 0 (calls.map Prod.fst), s') := by
  obtain ⟨outs, s', hrun⟩ := cryptCalls_isSome (E := E) (s.setIvInternal iv) calls hsize
  exact ⟨s', (ctrInv_setIvInternal E s iv).cryptCalls_spec hrun |>.1 ▸ hrun⟩

end Invariant

/-! ### A sample encrypted in calls -/

/-- Calls with room are all carried out and write the plaintext XORed with the keystream of
the IV, byte `j` from the counter block of block `⌊j / 16⌋`; so any split of the plaintext gives
the same bytes, and the same calls on the outputs give the plaintexts back. -/
theorem ctr_crypt_calls_keystream (E : BlockCipher) (s : AesCtrEncryptor) (iv : List Byte)
    (calls : List (List Byte × Nat)) (hsize : ∀ c ∈ calls, c.1.length ≤ c.2) :
    ∃ outs s', cryptCalls (AesCtrEncryptor.cryptInternal E) (s.setIvInternal iv) calls =
        some (outs, s') ∧
      outs.flatten.length = (calls.map Prod.fst).flatten.length ∧
      (∀ j < (calls.map Prod.fst).flatten.length,
        outs.flatten.getD j 0 = (calls.map Prod.fst).flatten.getD j 0 ^^^
          (E.encrypt (counterBlock iv (j / 16))).getD (j % 16) 0) ∧
      (∀ calls' : List (List Byte × Nat), (calls'.map Prod.fst).flatten = (calls.map Prod.fst).flatten →
        (∀ c ∈ calls', c.1.length ≤ c.2) →
        ∃ outs' s'', cryptCalls (AesCtrEncryptor.cryptInternal E) (s.setIvInternal iv) calls' =
          some (outs', s'') ∧ outs'.flatten = outs.flatten) ∧
      ∀ t : AesCtrEncryptor, ∃ t', cryptCalls (AesCtrEncryptor.cryptInternal E) (t.setIvInternal iv)
        (outs.zip (calls.map Prod.snd)) = some (calls.map Prod.fst, t') := by
  obtain ⟨s', hrun⟩ := cryptCalls_setIvInternal (E := E) s calls hsize
  refine ⟨_, s', hrun, by simp [flatten_xorKeystreamPieces], fun j hj => ?_,
    fun calls' hsame hsize' => ?_, fun t => ?_⟩
  · rw [flatten_xorKeystreamPieces, getD_xorKeystream _ _ _ _ hj, Nat.zero_add, keystreamByte]
  · obtain ⟨s'', hrun'⟩ := cryptCalls_setIvInternal (E := E) s calls' hsize'
    exact ⟨_, s'', hrun', by rw [flatten_xorKeystreamPieces, flatten_xorKeystreamPieces, hsame]⟩
  · -- the outputs fit the same calls, and the keystream undoes itself
    obtain ⟨t', hback⟩ := cryptCalls_setIvInternal (E := E) t _
      (xorKeystreamPieces_fit E iv 0 calls hsize)
    rw [List.map_fst_zip _ _ (by simp), xorKeystreamPieces_xorKeystreamPieces] at hback
    exact ⟨t', hback⟩

theorem ctr_crypt_calls_keystream_two_calls :
    (∀ c ∈ [([1#8, 2#8, 3#8], 3), ([4#8], 8)], c.1.length ≤ c.2) ∧
      ∃ outs s', cryptCalls
        (AesCtrEncryptor.cryptInternal ⟨fun b => resize b 16 0, fun b => length_resize b 16 0⟩)
        (AesCtrEncryptor.new.setIvInternal (List.replicate 16 0))
        [([1#8, 2#8, 3#8], 3), ([4#8], 8)] = some (outs, s') := by
  have hsize : ∀ c ∈ [([1#8, 2#8, 3#8], 3), ([4#8], 8)], c.1.length ≤ c.2 := by decide
  obtain ⟨outs, s', hrun, -⟩ := ctr_crypt_calls_keystream
    ⟨fun b => resize b 16 0, fun b => length_resize b 16 0⟩ AesCtrEncryptor.new
    (List.replicate 16 0) _ hsize
  exact ⟨hsize, outs, s', hrun⟩

/-! ### Any sequence of calls on one encryptor -/

/-- A call on an `AesCtrEncryptor`: `SetIvInternal`, or `CryptInternal` with its buffer size. -/
inductive CtrCall
  | setIv (iv : List Byte)
  | crypt (plaintext : List Byte) (ciphertextSize : Nat)

namespace AesCtrEncryptor

/-- One call and what it returns; a refused `CryptInternal` returns `none` and changes nothing. -/
def call (E : BlockCipher) (s : AesCtrEncryptor) : CtrCall → Option (List Byte) × AesCtrEncryptor
  | .setIv iv => (none, s.setIvInternal iv)
  | .crypt p size =>
    match s.cryptInternal E p size with
    | some (c, s') => (some c, s')
    | none => (none, s)

def runCalls (E : BlockCipher) :
    AesCtrEncryptor → List CtrCall → List (Option (List Byte)) × AesCtrEncryptor
  | s, [] => ([], s)
  | s, c :: cs =>
    let r := s.call E c
    let rest := runCalls E r.2 cs
    (r.1 :: rest.1, rest.2)

end AesCtrEncryptor

/-! ### Any sequence of calls against the keystream -/

/-- The abstract sample: the IV last set and the position reached in its keystream. -/
structure CtrSample where
  iv : List Byte
  position : Nat

namespace CtrSample

def call (E : BlockCipher) (σ : CtrSample) : CtrCall → Option (List Byte) × CtrSample
  | .setIv iv => (none, ⟨iv, 0⟩)
  | .crypt p size =>
    if size < p.length then (none, σ)
    else (some (xorKeystream E σ.iv σ.position p), ⟨σ.iv, σ.position + p.length⟩)

def runCalls (E : BlockCipher) : CtrSample → List CtrCall → List (Option (List Byte)) × CtrSample
  | σ, [] => ([], σ)
  | σ, c :: cs =>
    let r := σ.call E c
    let rest := runCalls E r.2 cs
    (r.1 :: rest.1, rest.2)

end CtrSample

section Refinement

variable {E : BlockCipher}

/-- One call keeps `CtrInv` and returns what the sample returns. -/
lemma CtrInv.call {σ : CtrSample} {s : AesCtrEncryptor} (h : CtrInv E σ.iv σ.position s)
    (c : CtrCall) :
    (s.call E c).1 = (σ.call E c).1 ∧
      CtrInv E (σ.call E c).2.iv (σ.call E c).2.position (s.call E c).2 := by
  cases c with
  | setIv iv => exact ⟨rfl, ctrInv_setIvInternal E s iv⟩
  | crypt p size =>
    by_cases hs : size < p.length
    · simpa [AesCtrEncryptor.call, CtrSample.call, AesCtrEncryptor.cryptInternal, hs] using h
    · obtain ⟨hp, h1⟩ := h.cryptLoop p
      simpa [AesCtrEncryptor.call, CtrSample.call, AesCtrEncryptor.cryptInternal, hs, hp] using h1

lemma CtrInv.runCalls {σ : CtrSample} {s : AesCtrEncryptor} (h : CtrInv E σ.iv σ.position s)
    (cs : List CtrCall) : (s.runCalls E cs).1 = (σ.runCalls E cs).1 := by
  induction cs generalizing σ s with
  | nil => rfl
  | cons c cs ih =>
    obtain ⟨hc, h1⟩ := h.call c
    simp only [AesCtrEncryptor.runCalls, CtrSample.runCalls, hc, ih h1]

end Refinement

/-- From `SetIvInternal`, any sequence of calls, refused ones included, returns what the sample
model returns: one keystream per IV, however the sample is split into calls. -/
theorem ctr_calls_refine_sample (E : BlockCipher) (s : AesCtrEncryptor) (iv : List Byte)
    (calls : List CtrCall) :
    ((s.setIvInternal iv).runCalls E calls).1 = (CtrSample.runCalls E ⟨iv, 0⟩ calls).1 :=
  (ctrInv_setIvInternal E s iv).runCalls calls

/-- A refused call changes nothing, and a new IV restarts the keystream. -/
example :
    ((AesCtrEncryptor.new.setIvInternal (5 :: List.replicate 15 0)).runCalls
        ⟨fun b => resize b 16 0, fun b => length_resize b 16 0⟩
        [.crypt [1, 2] 1, .crypt [1, 2] 2, .setIv (5 :: List.replicate 15 0), .crypt [1] 1]).1 =
      [none, some [4, 2], none, some [4]] := by decide

/-! ### The state after the calls of a sample -/

/-- Each `CryptInternal` call carried out moves the invariant past its plaintext. -/
lemma CtrInv.runCalls_crypt {E : BlockCipher} {iv : List Byte} {n : Nat} {s : AesCtrEncryptor}
    (h : CtrInv E iv n s) (calls : List (List Byte × Nat)) :
    CtrInv E iv (n + callBytes (calls.filter fun c => c.1.length ≤ c.2))
      (s.runCalls E (calls.map fun c => .crypt c.1 c.2)).2 := by
  induction calls generalizing n s with
  | nil => exact h
  | cons call calls ih =>
    obtain ⟨p, size⟩ := call
    have h1 := (CtrInv.call (σ := ⟨iv, n⟩) h (.crypt p size)).2
    by_cases hs : p.length ≤ size
    · have h2 := ih (by simpa [CtrSample.call, not_lt.mpr hs] using h1)
      simp only [List.map_cons, AesCtrEncryptor.runCalls, List.filter_cons, hs, decide_True,
        if_true, callBytes_cons]
      rwa [← Nat.add_assoc]
    · simpa [AesCtrEncryptor.runCalls, List.filter_cons, hs] using
        ih (by simpa [CtrSample.call, not_le.mp hs] using h1)

/-- After `SetIvInternal` and any `CryptInternal` calls, with `n` the bytes of those carried out:
the offset is `n mod 16`, the counter the IV's plus `⌈n / 16⌉` in its low half modulo `2 ^ 64`,
and inside a block the keystream block is block `⌊n / 16⌋`'s. -/
theorem ctr_state_after_calls (E : BlockCipher) (s : AesCtrEncryptor) (iv : List Byte)
    (calls : List (List Byte × Nat)) :
    let n := callBytes (calls.filter fun c => c.1.length ≤ c.2)
    let s' := ((s.setIvInternal iv).runCalls E (calls.map fun c => .crypt c.1 c.2)).2
    s'.blockOffset = n % 16 ∧ s'.counter.length = 16 ∧
      s'.counter.take 8 = (resize iv 16 0).take 8 ∧
      ofBE (s'.counter.drop 8) = (ofBE ((resize iv 16 0).drop 8) + (n + 15) / 16) % 2 ^ 64 ∧
      (n % 16 ≠ 0 → s'.encryptedCounter = E.encrypt (counterBlock iv (n / 16))) := by
  have h := (ctrInv_setIvInternal E s iv).runCalls_crypt calls
  rw [Nat.zero_add] at h
  intro n s'
  rw [h.counter_eq, length_counterBlock, take_counterBlock, ofBE_drop_counterBlock]
  exact ⟨h.blockOffset_eq, rfl, rfl, rfl, h.encryptedCounter_eq⟩

/-! ### The counter blocks of a sample -/

namespace AesCtrEncryptor

/-- The counter blocks the `CryptInternal` loop hands to `AES_encrypt`, in order. -/
def aesInputs (E : BlockCipher) : AesCtrEncryptor → List Byte → List (List Byte)
  | _, [] => []
  | s, b :: bs =>
    (if s.blockOffset = 0 then [s.counter] else []) ++ aesInputs E (s.cryptByte E b).2 bs

/-- The counter blocks a sequence of `CryptInternal` calls hands to `AES_encrypt`, in order. -/
def callsAesInputs (E : BlockCipher) : AesCtrEncryptor → List (List Byte × Nat) → List (List Byte)
  | _, [] => []
  | s, (p, size) :: calls =>
    match s.cryptInternal E p size with
    | some (_, s') => s.aesInputs E p ++ callsAesInputs E s' calls
    | none => callsAesInputs E s calls

end AesCtrEncryptor

section CounterBlocks

variable {E : BlockCipher} {iv : List Byte}

private lemma map_range'_append {α : Type} (f : Nat → α) {a b c : Nat} (hab : a ≤ b)
    (hbc : b ≤ c) :
    (List.range' a (b - a)).map f ++ (List.range' b (c - b)).map f =
      (List.range' a (c - a)).map f := by
  have h := List.range'_append_1 a (b - a) (c - b)
  rw [show a + (b - a) = b by omega, show c - b + (b - a) = c - a by omega] at h
  rw [← List.map_append, h]

/-- After `n` bytes, the loop over `p` encrypts the counter blocks of blocks `⌈n / 16⌉` up to
`⌈(n + |p|) / 16⌉`. -/
lemma CtrInv.aesInputs {n : Nat} {s : AesCtrEncryptor} (h : CtrInv E iv n s) (p : List Byte) :
    s.aesInputs E p =
      (List.range' ((n + 15) / 16) ((n + p.length + 15) / 16 - (n + 15) / 16)).map
        (counterBlock iv) := by
  induction p generalizing n s with
  | nil => simp [AesCtrEncryptor.aesInputs]
  | cons b p ih =>
    rw [AesCtrEncryptor.aesInputs, ih (h.cryptByte b).2, List.length_cons]
    by_cases hz : n % 16 = 0
    · -- a new keystream block starts here, from the counter of block `n / 16`
      rw [if_pos (h.blockOffset_eq.trans hz), h.counter_eq,
        show (n + (p.length + 1) + 15) / 16 - (n + 15) / 16 =
          (n + 1 + p.length + 15) / 16 - (n + 1 + 15) / 16 + 1 by omega,
        List.range'_succ, show (n + 15) / 16 + 1 = (n + 1 + 15) / 16 by omega]
      rfl
    · rw [if_neg (by rw [h.blockOffset_eq]; exact hz), List.nil_append,
        show (n + 1 + 15) / 16 = (n + 15) / 16 by omega,
        show n + 1 + p.length = n + (p.length + 1) by omega]

lemma CtrInv.callsAesInputs {n : Nat} {s : AesCtrEncryptor} (h : CtrInv E iv n s)
    (calls : List (List Byte × Nat)) :
    s.callsAesInputs E calls =
      (List.range' ((n + 15) / 16) ((n + callBytes (calls.filter fun c => c.1.length ≤ c.2) + 15)
        / 16 - (n + 15) / 16)).map (counterBlock iv) := by
  induction calls generalizing n s with
  | nil => simp [AesCtrEncryptor.callsAesInputs]
  | cons call calls ih =>
    obtain ⟨p, size⟩ := call
    by_cases hs : size < p.length
    · have hnone : s.cryptInternal E p size = none := by
        simp [AesCtrEncryptor.cryptInternal, hs]
      simp only [AesCtrEncryptor.callsAesInputs, hnone, ih h, List.filter_cons,
        decide_eq_true_eq, not_le.mpr hs, if_false]
    · have hcall : s.cryptInternal E p size = some (s.cryptLoop E p) := by
        simp [AesCtrEncryptor.cryptInternal, hs]
      simp only [AesCtrEncryptor.callsAesInputs, hcall, h.aesInputs, ih (h.cryptLoop p).2,
        List.filter_cons, decide_eq_true_eq, not_lt.mp hs, if_true, callBytes_cons]
      rw [map_range'_append _ (by omega) (by omega), ← Nat.add_assoc]

end CounterBlocks

/-- After `SetIvInternal`, any `CryptInternal` calls hand `AES_encrypt` the counter blocks of
blocks `0, 1, …` in order; within `2 ^ 64` blocks none repeats, and block `k + 2 ^ 64` would
reuse block `k`'s. -/
theorem ctr_sample_counter_blocks (E : BlockCipher) (s : AesCtrEncryptor) (iv : List Byte)
    (calls : List (List Byte × Nat)) :
    (s.setIvInternal iv).callsAesInputs E calls =
      (List.range ((callBytes (calls.filter fun c => c.1.length ≤ c.2) + 15) / 16)).map
        (counterBlock iv) ∧
    (callBytes (calls.filter fun c => c.1.length ≤ c.2) ≤ 16 * 2 ^ 64 →
      ((s.setIvInternal iv).callsAesInputs E calls).Nodup) ∧
    ∀ k, counterBlock iv (k + 2 ^ 64) = counterBlock iv k := by
  have hinputs := (ctrInv_setIvInternal E s iv).callsAesInputs calls
  simp only [Nat.zero_add, Nat.reduceDiv, Nat.sub_zero, ← List.range_eq_range'] at hinputs
  refine ⟨hinputs, fun hN => ?_, fun k => (counterBlock_eq_iff iv _ _).mpr (by omega)⟩
  rw [hinputs]
  refine (List.nodup_range _).map_on fun x hx y hy hxy => ?_
  have hxy := (counterBlock_eq_iff iv x y).mp hxy
  simp only [List.mem_range] at hx hy
  omega

/-- Twenty bytes over two calls, a refused call between them. -/
theorem ctr_sample_counter_blocks_two_blocks :
    callBytes ([(List.replicate 12 (1#8), 12), ([2#8], 0), (List.replicate 8 (3#8), 8)].filter
      fun c => c.1.length ≤ c.2) ≤ 16 * 2 ^ 64 ∧
    ((AesCtrEncryptor.new.setIvInternal (List.replicate 16 0)).callsAesInputs
        ⟨fun b => resize b 16 0, fun b => length_resize b 16 0⟩
        [(List.replicate 12 (1#8), 12), ([2#8], 0), (List.replicate 8 (3#8), 8)]).Nodup :=
  ⟨by decide, (ctr_sample_counter_blocks ⟨fun b => resize b 16 0, fun b => length_resize b 16 0⟩
    AesCtrEncryptor.new (List.replicate 16 0)
    [(List.replicate 12 (1#8), 12), ([2#8], 0), (List.replicate 8 (3#8), 8)]).2.1 (by decide)⟩

end EdashPackager.Media
