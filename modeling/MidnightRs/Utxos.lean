import MidnightRs.Errors
import MidnightRs.Hex

/-!
Unshielded UTXOs as the wallet tracks them, as the indexer sends them and as a
snapshot stores them. The two texts of a UTXO read back to what was tracked.
-/
namespace MidnightRs.Utxos

structure HashOutput where
  bytes : Bytes
  length_eq : bytes.length = 32
deriving DecidableEq, Repr

structure TrackedUtxo where
  owner : String
  tokenType : HashOutput
  value : Fin (2 ^ 128)
  intentHash : HashOutput
  outputIndex : Fin (2 ^ 32)
  ctime : Option ℤ
  registeredForDustGeneration : Option Bool
deriving DecidableEq, Repr

structure SpentUtxoKey where
  intentHash : HashOutput
  outputIndex : Fin (2 ^ 32)
deriving DecidableEq, Repr

def TrackedUtxo.spentKey (u : TrackedUtxo) : SpentUtxoKey := ⟨u.intentHash, u.outputIndex⟩

structure SubscriptionUtxo where
  owner : String
  tokenType : String
  value : String
  intentHash : String
  outputIndex : ℤ
  ctime : Option ℤ
  registeredForDustGeneration : Option Bool
deriving DecidableEq, Repr

/-- A tracked UTXO as `metadata.json` holds it. -/
structure StoredUtxo where
  owner : String
  tokenType : String
  value : String
  intentHash : String
  outputIndex : Fin (2 ^ 32)
  ctime : Option ℤ
  registeredForDustGeneration : Option Bool
deriving DecidableEq, Repr

section Texts

theorem decodePairs_length (index : ℕ) (data bytes : Bytes)
    (h : Hex.decodePairs index data = .ok bytes) : bytes.length = data.length / 2 := by
  induction index, data using Hex.decodePairs.induct generalizing bytes with
  | case1 index high low rest ih =>
    simp only [Hex.decodePairs] at h
    cases hhigh : Hex.value high index with
    | error e => simp [hhigh, bind, Except.bind] at h
    | ok a =>
      cases hlow : Hex.value low (index + 1) with
      | error e => simp [hhigh, hlow, bind, Except.bind] at h
      | ok b =>
        cases hrest : Hex.decodePairs (index + 2) rest with
        | error e => simp [hhigh, hlow, hrest, bind, Except.bind] at h
        | ok tail =>
          simp only [hhigh, hlow, hrest, bind, Except.bind, pure, Except.pure,
            Except.ok.injEq] at h
          subst h
          simp only [List.length_cons, ih tail hrest]
          omega
  | case2 data index hshort =>
    rcases data with _ | ⟨a, _ | ⟨b, rest⟩⟩
    · simp only [Hex.decodePairs, Except.ok.injEq] at h
      subst h
      rfl
    · simp only [Hex.decodePairs, Except.ok.injEq] at h
      subst h
      simp
    · exact absurd rfl (hshort a b rest)

/-- A 32-byte array from its hexadecimal text. -/
def HashOutput.fromHex (text : String) : Except String HashOutput :=
  let data := Hex.utf8 text
  if data.length % 2 ≠ 0 then .error "Odd number of digits"
  else if hlength : data.length / 2 ≠ 32 then .error "Invalid string length"
  else
    match hbytes : Hex.decodePairs 0 data with
    | .error e => .error e
    | .ok bytes =>
      .ok ⟨bytes, (decodePairs_length 0 data bytes hbytes).trans (not_not.mp hlength)⟩

theorem HashOutput.fromHex_encode (hash : HashOutput) :
    HashOutput.fromHex (Hex.encode hash.bytes) = .ok hash := by
  have hlen : (Hex.utf8 (Hex.encode hash.bytes)).length = 64 := by
    rw [Hex.utf8_encode, List.length_flatMap]
    simp [hash.length_eq]
  have hdecode : Hex.decodePairs 0 (Hex.utf8 (Hex.encode hash.bytes)) = .ok hash.bytes := by
    rw [Hex.utf8_encode]
    exact Hex.decodePairs_encode hash.bytes 0
  unfold HashOutput.fromHex
  simp only [hlen]
  rw [if_neg (by decide), dif_neg (by decide)]
  split
  · rename_i e herror
    rw [hdecode] at herror
    cases herror
  · rename_i bytes hbytes
    have heq := hdecode.symm.trans hbytes
    cases hash
    cases Except.ok.inj heq
    rfl

/-- Digits are read from the left, and the first that does not fit stops. -/
def parseDigits {bound : ℕ} : Fin bound → List Char → Except String (Fin bound)
  | n, [] => .ok n
  | n, c :: cs =>
    if c.isDigit then
      if h : 10 * n.val + (c.toNat - '0'.toNat) < bound then parseDigits ⟨_, h⟩ cs
      else .error "number too large to fit in target type"
    else .error "invalid digit found in string"

def parseU128 (text : String) : Except String (Fin (2 ^ 128)) :=
  match text.toList with
  | [] => .error "cannot parse integer from empty string"
  | '+' :: c :: cs => parseDigits ⟨0, by decide⟩ (c :: cs)
  | cs => parseDigits ⟨0, by decide⟩ cs

theorem le_ofDigitChars (cs : List Char) (n : ℕ) : n ≤ Nat.ofDigitChars 10 cs n := by
  induction cs generalizing n with
  | nil => simp
  | cons c cs ih =>
    rw [Nat.ofDigitChars_cons]
    exact le_trans (by omega) (ih _)

theorem parseDigits_eq {bound : ℕ} (n : Fin bound) (cs : List Char)
    (hdigits : ∀ c ∈ cs, c.isDigit = true) (hfits : Nat.ofDigitChars 10 cs n.val < bound) :
    parseDigits n cs = .ok ⟨Nat.ofDigitChars 10 cs n.val, hfits⟩ := by
  induction cs generalizing n with
  | nil => simp [parseDigits]
  | cons c cs ih =>
    rw [Nat.ofDigitChars_cons] at hfits
    have hnext : 10 * n.val + (c.toNat - '0'.toNat) < bound :=
      lt_of_le_of_lt (le_ofDigitChars cs _) hfits
    unfold parseDigits
    rw [if_pos (hdigits c (by simp)), dif_pos hnext,
      ih ⟨_, hnext⟩ (fun d hd => hdigits d (by simp [hd])) hfits]
    simp [Nat.ofDigitChars_cons]

/-- Reading inverts printing. -/
theorem parseU128_repr (n : Fin (2 ^ 128)) : parseU128 n.val.repr = .ok n := by
  have hdigits : ∀ c ∈ Nat.toDigits 10 n.val, c.isDigit = true := fun c hc =>
    Nat.isDigit_of_mem_toDigits (by decide) (by decide) hc
  have hval : Nat.ofDigitChars 10 (Nat.toDigits 10 n.val) 0 = n.val :=
    Nat.ofDigitChars_toDigits (by decide) (by decide)
  have hparse := parseDigits_eq (⟨0, by decide⟩ : Fin (2 ^ 128)) (Nat.toDigits 10 n.val) hdigits
    (by rw [hval]; exact n.isLt)
  unfold parseU128
  rw [Nat.toList_repr]
  split
  · rename_i hnil
    exact absurd hnil Nat.toDigits_ne_nil
  · rename_i c cs heq
    exact absurd (hdigits '+' (by rw [heq]; simp)) (by decide)
  · rw [hparse]
    exact congrArg Except.ok (Fin.ext hval)

def u32TryFrom (i : ℤ) : Except String (Fin (2 ^ 32)) :=
  if h : 0 ≤ i ∧ i < 2 ^ 32 then .ok ⟨i.toNat, by omega⟩
  else .error "out of range integral type conversion attempted"

end Texts

def malformed (field value reason : String) : WalletError :=
  .malformedUtxo field value reason none

def parseUtxo (u : SubscriptionUtxo) : Except WalletError TrackedUtxo :=
  match HashOutput.fromHex u.tokenType with
  | .error e => .error (malformed "token_type" u.tokenType e)
  | .ok tokenType =>
    match parseU128 u.value with
    | .error e => .error (malformed "value" u.value e)
    | .ok value =>
      match HashOutput.fromHex u.intentHash with
      | .error e => .error (malformed "intent_hash" u.intentHash e)
      | .ok intentHash =>
        match u32TryFrom u.outputIndex with
        | .error e => .error (malformed "output_index" (toString u.outputIndex) e)
        | .ok outputIndex =>
          .ok ⟨u.owner, tokenType, value, intentHash, outputIndex, u.ctime,
            u.registeredForDustGeneration⟩

section Storing

def StoredUtxo.from (u : TrackedUtxo) : StoredUtxo where
  owner := u.owner
  tokenType := Hex.encode u.tokenType.bytes
  value := u.value.val.repr
  intentHash := Hex.encode u.intentHash.bytes
  outputIndex := u.outputIndex
  ctime := u.ctime
  registeredForDustGeneration := u.registeredForDustGeneration

def malformedStored (field value reason : String) : WalletError :=
  .storage s!"metadata.json: stored UTXO {field} {value.quote}: {reason}"

def TrackedUtxo.tryFrom (u : StoredUtxo) : Except WalletError TrackedUtxo :=
  match HashOutput.fromHex u.tokenType with
  | .error e => .error (malformedStored "token_type" u.tokenType e)
  | .ok tokenType =>
    match parseU128 u.value with
    | .error e => .error (malformedStored "value" u.value e)
    | .ok value =>
      match HashOutput.fromHex u.intentHash with
      | .error e => .error (malformedStored "intent_hash" u.intentHash e)
      | .ok intentHash =>
        .ok ⟨u.owner, tokenType, value, intentHash, u.outputIndex, u.ctime,
          u.registeredForDustGeneration⟩

theorem tryFrom_from (u : TrackedUtxo) : TrackedUtxo.tryFrom (StoredUtxo.from u) = .ok u := by
  simp only [TrackedUtxo.tryFrom, StoredUtxo.from, HashOutput.fromHex_encode, parseU128_repr]

theorem mapM_tryFrom_from (utxos : List TrackedUtxo) :
    (utxos.map StoredUtxo.from).mapM TrackedUtxo.tryFrom = .ok utxos := by
  induction utxos with
  | nil => rfl
  | cons u utxos ih =>
    rw [List.map_cons, List.mapM_cons, tryFrom_from, ih]
    rfl

end Storing

/-- What a hard fork that empties the chain's Dust registrations leaves of a
UTXO. -/
def TrackedUtxo.unregistered (u : TrackedUtxo) : TrackedUtxo :=
  { u with registeredForDustGeneration := some false }

def SubscriptionUtxo.unregistered (u : SubscriptionUtxo) : SubscriptionUtxo :=
  { u with registeredForDustGeneration := some false }

@[simp] theorem TrackedUtxo.spentKey_unregistered (u : TrackedUtxo) :
    u.unregistered.spentKey = u.spentKey := rfl

theorem parseUtxo_unregistered (u : SubscriptionUtxo) :
    parseUtxo u.unregistered = (parseUtxo u).map TrackedUtxo.unregistered := by
  unfold parseUtxo SubscriptionUtxo.unregistered
  cases HashOutput.fromHex u.tokenType with
  | error e => rfl
  | ok tokenType =>
    cases parseU128 u.value with
    | error e => rfl
    | ok value =>
      cases HashOutput.fromHex u.intentHash with
      | error e => rfl
      | ok intentHash => cases u32TryFrom u.outputIndex <;> rfl

end MidnightRs.Utxos
