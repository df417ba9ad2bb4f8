import MidnightRs.DiskFollows

/-!
Telling one chain from another. A snapshot carries a pin, a finalized block of
the chain it was replayed from, and the node says whether its chain still holds
that block. Two chains have no block in common, so a pin names one chain.
-/
namespace MidnightRs.ChainSync

open LedgerReplays Storage Directories

section Pins

abbrev BlockHash := Utxos.HashOutput

/-- What a pin says about the chain in front of us. -/
inductive ChainCheck where
  | sameChain
  | replaced (found : Option BlockHash)
  | unknown
deriving DecidableEq, Repr

/-- What the node answers to one operation. -/
structure ChainView where
  blockHashesAt : ℕ → Option (List BlockHash)
  finalizedHeight : Option ℕ

/-- The text of a pinned hash. -/
def pinHash (hash : BlockHash) : String := "0x" ++ Hex.encode hash.bytes

def lowercase (text : String) : List Char := text.toList.map Char.toLower

def eqIgnoreAsciiCase (a b : String) : Bool := decide (lowercase a = lowercase b)

/-- The finalized block that the chain reports now. -/
def currentPin (view : ChainView) : Option ChainPin :=
  view.finalizedHeight.bind (fun height =>
    (view.blockHashesAt height).bind (fun hashes =>
      hashes.head?.map (fun hash => ⟨height, pinHash hash⟩)))

/-- No answer says nothing, and an empty answer says that the chain is shorter. -/
def checkChainPin (pin : ChainPin) (hashes : Option (List BlockHash)) : ChainCheck :=
  match hashes with
  | none => .unknown
  | some hashes =>
    if hashes.any (fun hash => eqIgnoreAsciiCase (pinHash hash) pin.hash) then .sameChain
    else .replaced hashes.head?

def verifyPin (view : ChainView) (pin : ChainPin) : ChainCheck :=
  checkChainPin pin (view.blockHashesAt pin.height)

/-- Refuses state of a chain that the node no longer runs. A node that cannot
answer leaves the state alone. -/
def requireSameChain (view : ChainView) (pin : ChainPin) (snapshot : Option String) :
    Except WalletError Unit :=
  match verifyPin view pin with
  | .sameChain => .ok ()
  | .unknown => .ok ()
  | .replaced found => .error (.chainMismatch (snapshot.getD "the wallet snapshot") pin.height
      pin.hash (found.elim "no block" pinHash))

end Pins

section Chains

theorem toLower_digit (n : ℕ) (h : n < 16) : (Hex.digit n).toLower = Hex.digit n := by
  have hfin : ∀ k : Fin 16, (Hex.digit k).toLower = Hex.digit k := by decide
  exact hfin ⟨n, h⟩

/-- A pinned hash is in lower case. -/
theorem lowercase_pinHash (hash : BlockHash) : lowercase (pinHash hash) = (pinHash hash).toList := by
  have hchars : ∀ bytes : Bytes,
      (Hex.encodeChars bytes).map Char.toLower = Hex.encodeChars bytes := by
    intro bytes
    induction bytes with
    | nil => rfl
    | cons b bytes ih =>
      have hb := b.toNat_lt
      have hhigh := toLower_digit (b.toNat / 16) (by omega)
      have hlow := toLower_digit (b.toNat % 16) (by omega)
      simp only [Hex.encodeChars, List.flatMap_cons, List.map_append, List.map_cons, List.map_nil,
        hhigh, hlow] at ih ⊢
      rw [ih]
  unfold lowercase pinHash Hex.encode
  rw [String.toList_append, List.map_append, @String.toList_ofList (Hex.encodeChars hash.bytes),
    hchars]
  rfl

theorem pinHash_inj {a b : BlockHash} (h : lowercase (pinHash a) = lowercase (pinHash b)) :
    a = b := by
  rw [lowercase_pinHash, lowercase_pinHash] at h
  have htext : Hex.encode a.bytes = Hex.encode b.bytes := by
    unfold pinHash at h
    rw [String.toList_append, String.toList_append] at h
    exact String.toList_injective (List.append_cancel_left h)
  obtain ⟨bytes, _⟩ := a
  obtain ⟨bytes', _⟩ := b
  obtain rfl : bytes = bytes' := Hex.encode_injective htext
  rfl

variable {C : Type}

/-- A node that answers from the blocks of one chain. -/
def ChainView.Shows (blocksAt : C → ℕ → List BlockHash) (view : ChainView) (c : C) : Prop :=
  ∀ height hashes, view.blockHashesAt height = some hashes → hashes ⊆ blocksAt c height

/-- A pin of one of the chain's blocks. -/
def Names (blocksAt : C → ℕ → List BlockHash) (pin : ChainPin) (c : C) : Prop :=
  checkChainPin pin (some (blocksAt c pin.height)) = .sameChain

/-- No two chains have a block in common. -/
def Apart (blocksAt : C → ℕ → List BlockHash) : Prop :=
  ∀ a b height hash, hash ∈ blocksAt a height → hash ∈ blocksAt b height → a = b

variable {blocksAt : C → ℕ → List BlockHash} {view : ChainView} {pin : ChainPin} {c c' : C}

theorem names_iff : Names blocksAt pin c ↔
    ∃ hash ∈ blocksAt c pin.height, lowercase (pinHash hash) = lowercase pin.hash := by
  unfold Names checkChainPin
  simp only [List.any_eq_true, eqIgnoreAsciiCase, decide_eq_true_eq]
  constructor
  · intro h
    split at h
    · assumption
    · cases h
  · intro h
    rw [if_pos h]

theorem Names.unique (hapart : Apart blocksAt) (h : Names blocksAt pin c)
    (h' : Names blocksAt pin c') : c = c' := by
  obtain ⟨hash, hhash, heq⟩ := names_iff.mp h
  obtain ⟨hash', hhash', heq'⟩ := names_iff.mp h'
  obtain rfl := pinHash_inj (heq.trans heq'.symm)
  exact hapart c c' pin.height hash hhash hhash'

/-- A fresh pin names the chain that the node runs. -/
theorem names_currentPin (hshows : view.Shows blocksAt c) (h : currentPin view = some pin) :
    Names blocksAt pin c := by
  unfold currentPin at h
  simp only [Option.bind_eq_some_iff, Option.map_eq_some_iff] at h
  obtain ⟨height, -, hashes, hhashes, hash, hhead, rfl⟩ := h
  exact names_iff.mpr ⟨hash, hshows height hashes hhashes (List.mem_of_mem_head? hhead), rfl⟩

theorem names_of_verifyPin (hshows : view.Shows blocksAt c) (h : verifyPin view pin = .sameChain) :
    Names blocksAt pin c := by
  unfold verifyPin at h
  cases hhashes : view.blockHashesAt pin.height with
  | none =>
    rw [hhashes] at h
    cases h
  | some hashes =>
    rw [hhashes] at h
    unfold checkChainPin at h
    simp only at h
    split at h
    · rename_i hany
      obtain ⟨hash, hhash, heq⟩ := List.any_eq_true.mp hany
      exact names_iff.mpr ⟨hash, hshows _ _ hhashes hhash, of_decide_eq_true heq⟩
    · cases h

theorem requireSameChain_ok {snapshot : Option String}
    (h : requireSameChain view pin snapshot = .ok ()) :
    verifyPin view pin = .sameChain ∨ view.blockHashesAt pin.height = none := by
  unfold requireSameChain at h
  cases hcheck : verifyPin view pin with
  | sameChain => exact Or.inl rfl
  | replaced found =>
    rw [hcheck] at h
    cases h
  | unknown =>
    refine Or.inr ?_
    unfold verifyPin checkChainPin at hcheck
    split at hcheck
    · assumption
    · split at hcheck
      · cases hcheck
      · cases hcheck

/-- A node that answers from its whole chain is never refused on the chain that
the pin names, and always on another. -/
theorem requireSameChain_names (hall : view.blockHashesAt pin.height = some (blocksAt c pin.height))
    (snapshot : Option String) :
    requireSameChain view pin snapshot = .ok () ↔ Names blocksAt pin c := by
  unfold requireSameChain Names verifyPin
  rw [hall]
  constructor
  · intro h
    split at h
    · assumption
    · rename_i hunknown
      unfold checkChainPin at hunknown
      simp only at hunknown
      split at hunknown <;> cases hunknown
    · cases h
  · intro h
    rw [h]

end Chains

end MidnightRs.ChainSync
