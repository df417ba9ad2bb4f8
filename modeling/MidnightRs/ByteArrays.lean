import MidnightRs.NumberCasts

/-!
Byte strings as arrays. The ledger holds a byte string as one atom without its
trailing zeros, and the operations of a circuit put them back from the length that
the type gives. Each of them does to the atom what it does to the padded array.
-/
namespace MidnightRs.Circuits

open MidnightRs.Compact Results

section Operations

/-- The bytes as a vector of numbers of one byte. -/
def bytesToVector (len : ℕ) (v : Value) : Result Value := do
  let len ← irLength len
  let bytes ← paddedBytes v len
  .ok (.tuple (bytes.map (fun b => .alignedValue (ofU8 b.toNat))))

def vectorToBytes (len : ℕ) (v : Value) : Result Value := do
  let len ← irLength len
  let bytes ← vectorValueToBytes v len
  (bytesAlignedValue bytes len).map .alignedValue

/-- Two byte strings after each other, spread as vectors into one. -/
def concatBytes (k m : ℕ) (x y : Value) : Result Value := do
  let xs ← bytesToVector k x
  let ys ← bytesToVector m y
  let xs ← spliceSpread xs none k
  let ys ← spliceSpread ys none m
  vectorToBytes (k + m) (.tuple (xs ++ ys))

/-- The check of a byte slice as the machine makes it, in words of 64 bits. -/
def sliceOutOfBounds (width len start : UInt64) : Bool := width < len || width - len < start

end Operations

section Steps

variable {c : Codecs} (crypto : Crypto c) {vm : Vm} (program : Program) (env : Env vm)
  (eval : Expr → Exec vm Value)

end Steps

section Arrays

/-- The array of `n` bytes that an atom stands for. -/
def padded (n : ℕ) (a : Atom) : Bytes := a ++ List.replicate (n - a.length) 0

def bytesValue (n : ℕ) (a : Atom) : Value := .alignedValue (.single a (.bytes n))

/-- A value of the type `Bytes<n>` in its normal form: one atom that fits, without
trailing zeros. -/
structure ByteString (n : ℕ) where
  atom : Atom
  fits : atom.length ≤ n
  trimmed : trim atom = atom

def ByteString.value {n : ℕ} (s : ByteString n) : Value := bytesValue n s.atom

def ByteString.array {n : ℕ} (s : ByteString n) : Bytes := padded n s.atom

variable {n : ℕ} {a : Atom}

theorem length_padded (h : a.length ≤ n) : (padded n a).length = n := by
  unfold padded
  rw [List.length_append, List.length_replicate]
  omega

theorem trim_padded (h : trim a = a) : trim (padded n a) = a := by
  rw [← h]
  exact trim_eq_of_ofLeBytes_eq _ _ ((ofLeBytes_append_zeros _ _).trans (by rw [h]))

/-- An array is what its normal form is padded to. -/
theorem padded_trim (bytes : Bytes) : padded bytes.length (trim bytes) = bytes := by
  induction bytes with
  | nil => rfl
  | cons b bs ih =>
    rw [trim_cons]
    unfold padded at ih ⊢
    by_cases hzero : trim bs = [] ∧ b = 0
    · obtain ⟨hbs, rfl⟩ := hzero
      rw [if_pos ⟨hbs, rfl⟩]
      rw [hbs] at ih
      simp only [List.length_nil, Nat.sub_zero, List.nil_append] at ih
      simp only [List.length_cons, List.length_nil, Nat.sub_zero, List.nil_append,
        List.replicate_succ, ih]
    · rw [if_neg hzero]
      simp only [List.length_cons, Nat.add_sub_add_right, List.cons_append, ih]

theorem paddedBytes_bytesValue (h : a.length ≤ n) :
    paddedBytes (bytesValue n a) n = .ok (padded n a) := by
  simp only [paddedBytes, bytesValue, AlignedValue.single, valueToByteString,
    Nat.not_lt.mpr h, if_false, Except.map, padded]

theorem irLength_of_lt (h : n < 2 ^ 32) : irLength n = .ok n :=
  if_pos (h.trans (by decide))

/-- Bytes that fit come back as one atom. -/
theorem bytesAlignedValue_of_le {bytes : Bytes} (hn : n < 2 ^ 32) (h : bytes.length ≤ n) :
    (bytesAlignedValue bytes n).map Value.alignedValue = .ok (bytesValue n (trim bytes)) := by
  have hasU32 : asU32 n = n := Nat.mod_eq_of_lt hn
  have hfits : (trim bytes).length ≤ n := (length_trim_le bytes).trans h
  simp only [bytesAlignedValue, hasU32, hfits, if_true, Except.map, bytesValue]

/-- The length of an atom is one of 32 bits, and a length that wraps to zero leaves no room. -/
theorem bytesAlignedValue_wrapped {b : UInt8} (hb : b ≠ 0) (bytes : Bytes) (hn : asU32 n = 0) :
    bytesAlignedValue (b :: bytes) n = .error (.bytesDoNotFit (b :: bytes).length n) := by
  have hlong : ¬ (trim (b :: bytes)).length ≤ asU32 n := by
    rw [hn, trim_cons, if_neg (fun hzero => hb hzero.2), List.length_cons]
    omega
  exact if_neg hlong

theorem byteOfElement_ofU8 (b : UInt8) : byteOfElement (.alignedValue (ofU8 b.toNat)) = .ok b := by
  have hlt := b.toNat_lt
  have hlength : (trim (toLeBytes 1 b.toNat)).length ≤ u128Bytes :=
    (length_trim_le _).trans (by rw [length_toLeBytes]; decide)
  have hnumber : ofLeBytes (trim (toLeBytes 1 b.toNat)) = b.toNat := by
    rw [ofLeBytes_trim, ofLeBytes_toLeBytes 1 _ (by simpa using hlt)]
  have hvalue : valueToU128 (.alignedValue (ofU8 b.toNat)) = some b.toNat := by
    simp only [valueToU128, ofU8, AlignedValue.single, alignedAtomToU128, hlength, if_true,
      hnumber]
  have hbyte : b.toNat < 256 := hlt
  simp only [byteOfElement, hvalue, required, bind, Except.bind, hbyte, if_true, pure, Except.pure,
    UInt8.ofNat_toNat]

theorem bytesOfElements_map (bytes : Bytes) :
    bytesOfElements (bytes.map (fun b => .alignedValue (ofU8 b.toNat))) = .ok bytes := by
  induction bytes with
  | nil => rfl
  | cons b bs ih =>
    simp only [List.map_cons, bytesOfElements, byteOfElement_ofU8, ih, bind, Except.bind, pure,
      Except.pure]

/-- The elements of the vector that a byte string becomes. -/
def byteElements (bytes : Bytes) : List Value :=
  bytes.map (fun b => .alignedValue (ofU8 b.toNat))

theorem bytesToVector_bytesValue (hn : n < 2 ^ 32) (h : a.length ≤ n) :
    bytesToVector n (bytesValue n a) = .ok (.tuple (byteElements (padded n a))) := by
  simp only [bytesToVector, irLength_of_lt hn, paddedBytes_bytesValue h, bind, Except.bind,
    byteElements]

theorem vectorToBytes_elements {bytes : Bytes} (hn : n < 2 ^ 32) (h : bytes.length = n) :
    vectorToBytes n (.tuple (byteElements bytes)) = .ok (bytesValue n (trim bytes)) := by
  have hlength : (byteElements bytes).length = n := by rw [byteElements, List.length_map, h]
  have hbytes : vectorValueToBytes (.tuple (byteElements bytes)) n = .ok bytes := by
    simp only [vectorValueToBytes, hlength, ne_eq, not_true_eq_false, if_false]
    exact bytesOfElements_map bytes
  simp only [vectorToBytes, irLength_of_lt hn, bind, Except.bind, hbytes]
  exact bytesAlignedValue_of_le hn h.le

/-- A single byte is the element of its own array. -/
theorem bytesValue_one (htrim : trim a = a) (h : a.length ≤ 1) :
    [bytesValue 1 a] = byteElements (padded 1 a) := by
  obtain ⟨b, hb⟩ := List.length_eq_one_iff.mp (length_padded h)
  have hatom := trim_padded (n := 1) htrim
  rw [hb] at hatom
  have hbytes : toLeBytes 1 b.toNat = [b] := by
    simp only [toLeBytes, UInt8.ofNat_toNat, UInt8.toNat_mod_size]
  rw [hb, ← hatom]
  simp only [byteElements, List.map_cons, List.map_nil, ofU8, hbytes, bytesValue]

theorem spliceSpread_elements (bytes : Bytes) :
    spliceSpread (.tuple (byteElements bytes)) none bytes.length = .ok (byteElements bytes) := by
  have hlength : (byteElements bytes).length = bytes.length := List.length_map _
  simp only [spliceSpread, hlength, ne_eq, not_true_eq_false, if_false]

end Arrays

section Slices

variable {n : ℕ} {a : Atom} {ty : Ty}

theorem byteAt_bytesValue (h : a.length ≤ n) (i : ℕ) (what : String) :
    (∀ b, (padded n a)[i]? = some b →
      byteAt (bytesValue n a) n i what = .ok (.integer b.toNat)) ∧
    (n ≤ i → ∃ e, byteAt (bytesValue n a) n i what = .error e) := by
  constructor
  · intro b hb
    obtain ⟨hlength, -⟩ := List.getElem?_eq_some_iff.mp hb
    have hi : i < n := hlength.trans_eq (length_padded h)
    simp only [byteAt, Nat.not_le.mpr hi, if_false, paddedBytes_bytesValue h, Except.map]
    rw [List.getD_eq_getElem?_getD, hb]
    rfl
  · intro hi
    exact ⟨_, if_pos hi⟩

/-- A slice is the same slice of the array. -/
theorem bytesSlice_eq (hty : ty.resolved = .bytes n) (hn : n < usizeBound)
    {start len : ℕ} (hrange : start + len ≤ n) {v : Value}
    (hv : paddedBytes v n = .ok (padded n a)) :
    bytesSlice v ty start len =
      (bytesAlignedValue (((padded n a).drop start).take len) len).map .alignedValue := by
  have hlen : irLength len = .ok len := if_pos (by omega)
  have hwidth : irLength n = .ok n := if_pos hn
  have hbounds : ¬ (n < len ∨ n - len < start) := by omega
  simp only [bytesSlice, hlen, hty, hwidth, bind, Except.bind, hbounds, if_false, hv]

theorem bytesSlice_ok (hty : ty.resolved = .bytes n) (hn : n < 2 ^ 32) (h : a.length ≤ n)
    {start len : ℕ} (hrange : start + len ≤ n) :
    bytesSlice (bytesValue n a) ty start len =
      .ok (bytesValue len (trim (((padded n a).drop start).take len))) := by
  rw [bytesSlice_eq hty (hn.trans (by decide)) hrange (paddedBytes_bytesValue h)]
  refine bytesAlignedValue_of_le (by omega) ?_
  rw [List.length_take]
  exact Nat.min_le_left _ _

/-- A range that leaves the array is refused. -/
theorem bytesSlice_refused (hty : ty.resolved = .bytes n) (hn : n < usizeBound) {start len : ℕ}
    (hrange : n < start + len) (v : Value) : ∃ e, bytesSlice v ty start len = .error e := by
  unfold bytesSlice
  by_cases hlen : len < usizeBound
  · have hlength : irLength len = .ok len := if_pos hlen
    have hwidth : irLength n = .ok n := if_pos hn
    have hbounds : n < len ∨ n - len < start := by omega
    simp only [hlength, hty, hwidth, bind, Except.bind, hbounds, if_true]
    exact ⟨_, rfl⟩
  · have hlength : irLength len = .error (.lengthTooLarge len) := if_neg hlen
    simp only [hlength, bind, Except.bind]
    exact ⟨_, rfl⟩

/-- In machine words the check is the one of numbers, and what it lets through adds up
without a carry. -/
theorem sliceOutOfBounds_iff (width len start : UInt64) :
    (sliceOutOfBounds width len start = true ↔ width.toNat < start.toNat + len.toNat) ∧
    (sliceOutOfBounds width len start = false →
      (start + len).toNat = start.toNat + len.toNat) := by
  have hwidth := width.toNat_lt
  have hiff : sliceOutOfBounds width len start = true ↔ width.toNat < start.toNat + len.toNat := by
    unfold sliceOutOfBounds
    rw [Bool.or_eq_true, decide_eq_true_iff, decide_eq_true_iff, UInt64.lt_iff_toNat_lt,
      UInt64.lt_iff_toNat_lt]
    by_cases hlen : width.toNat < len.toNat
    · omega
    · rw [UInt64.toNat_sub_of_le _ _ (UInt64.le_iff_toNat_le.mpr (by omega))]
      omega
  refine ⟨hiff, fun hfalse => ?_⟩
  have hsum : ¬ width.toNat < start.toNat + len.toNat := by
    rw [← hiff, hfalse]
    exact Bool.false_ne_true
  rw [UInt64.toNat_add, Nat.mod_eq_of_lt (by omega)]

/-- A byte string of another length than one is no vector to spread. -/
theorem spliceSpread_bytesValue (hty : ty.resolved = .bytes n) (h : a.length ≤ n) :
    (n ≠ 1 → ∃ e, spliceSpread (bytesValue n a) (some ty) n = .error e) ∧
    (n = 1 → spliceSpread (bytesValue n a) (some ty) n = .ok [bytesValue 1 a]) := by
  have hcount : (some ty).bind elementCount = none := by
    simp only [Option.bind, elementCount, hty]
  constructor
  · intro hone
    have hatoms : ¬ (1 = n) := fun heq => hone heq.symm
    simp only [spliceSpread, bytesValue, AlignedValue.single, hcount, reduceCtorEq, if_false,
      List.length_singleton, ne_eq, hatoms, not_false_eq_true, if_true]
    exact ⟨_, rfl⟩
  · rintro rfl
    simp only [spliceSpread, bytesValue, AlignedValue.single, hcount, reduceCtorEq, if_false,
      List.length_singleton, ne_eq, not_true_eq_false]
    rfl

/-- Two slices that meet make up the byte string. -/
theorem concatBytes_slices (hn : n < 2 ^ 32) (htrim : trim a = a) (h : a.length ≤ n) {k : ℕ}
    (hk : k ≤ n) :
    concatBytes k (n - k) (bytesValue k (trim (((padded n a).drop 0).take k)))
      (bytesValue (n - k) (trim (((padded n a).drop k).take (n - k)))) = .ok (bytesValue n a) := by
  have hlength := length_padded h
  have hfirst : (((padded n a).drop 0).take k).length = k := by
    rw [List.drop_zero, List.length_take, hlength]
    omega
  have hsecond : (((padded n a).drop k).take (n - k)).length = n - k := by
    rw [List.length_take, List.length_drop, hlength]
    omega
  have hx := bytesToVector_bytesValue (n := k) (a := trim (((padded n a).drop 0).take k)) (by omega)
    ((length_trim_le _).trans hfirst.le)
  have hy := bytesToVector_bytesValue (n := n - k) (a := trim (((padded n a).drop k).take (n - k)))
    (by omega) ((length_trim_le _).trans hsecond.le)
  have hpadx := padded_trim (((padded n a).drop 0).take k)
  have hpady := padded_trim (((padded n a).drop k).take (n - k))
  rw [hfirst] at hpadx
  rw [hsecond] at hpady
  rw [hpadx] at hx
  rw [hpady] at hy
  have hspreadx := spliceSpread_elements (((padded n a).drop 0).take k)
  have hspready := spliceSpread_elements (((padded n a).drop k).take (n - k))
  rw [hfirst] at hspreadx
  rw [hsecond] at hspready
  have hjoin : ((padded n a).drop 0).take k ++ ((padded n a).drop k).take (n - k) =
      padded n a := by
    have hrest : ((padded n a).drop k).take (n - k) = (padded n a).drop k :=
      List.take_of_length_le (by rw [List.length_drop, hlength])
    rw [List.drop_zero, hrest, List.take_append_drop]
  have helements : byteElements (((padded n a).drop 0).take k) ++
      byteElements (((padded n a).drop k).take (n - k)) = byteElements (padded n a) := by
    rw [byteElements, byteElements, ← List.map_append, hjoin]
    rfl
  have hsum : k + (n - k) = n := by omega
  simp only [concatBytes, hx, hy, hspreadx, hspready, helements, hsum, bind, Except.bind]
  rw [vectorToBytes_elements hn hlength, trim_padded htrim]

/-- A byte string does what its array does. It is itself no vector to spread, and the
vector that it is turned into is. -/
theorem byteString_as_array (hn : n < 2 ^ 32) (s : ByteString n) (hty : ty.resolved = .bytes n) :
    s.array.length = n ∧
    (bytesToVector n s.value >>= vectorToBytes n) = .ok s.value ∧
    (∀ i what,
      (∀ b, s.array[i]? = some b → byteRef s.value ty i = .ok (.integer b.toNat) ∧
        indexedElement s.value (some ty) i what = .ok (.integer b.toNat)) ∧
      (n ≤ i → (∃ e, byteRef s.value ty i = .error e) ∧
        ∃ e, indexedElement s.value (some ty) i what = .error e)) ∧
    (∀ start len,
      (start + len ≤ n → bytesSlice s.value ty start len =
        .ok (bytesValue len (trim ((s.array.drop start).take len)))) ∧
      (n < start + len → ∃ e, bytesSlice s.value ty start len = .error e)) ∧
    (∀ width len start : UInt64,
      (sliceOutOfBounds width len start = true ↔ width.toNat < start.toNat + len.toNat) ∧
      (sliceOutOfBounds width len start = false →
        (start + len).toNat = start.toNat + len.toNat)) ∧
    (bytesToVector n s.value >>= fun v => spliceSpread v none n) = .ok (byteElements s.array) ∧
    (n ≠ 1 → ∃ e, spliceSpread s.value (some ty) n = .error e) ∧
    (n = 1 → spliceSpread s.value (some ty) n = .ok (byteElements s.array)) ∧
    (∀ k ≤ n, ∃ x y, bytesSlice s.value ty 0 k = .ok x ∧ bytesSlice s.value ty k (n - k) = .ok y ∧
      concatBytes k (n - k) x y = .ok s.value) := by
  obtain ⟨a, h, htrim⟩ := s
  have hlength := length_padded h
  have hback : (bytesToVector n (bytesValue n a) >>= vectorToBytes n) = .ok (bytesValue n a) := by
    rw [bytesToVector_bytesValue hn h]
    show vectorToBytes n (.tuple (byteElements (padded n a))) = _
    rw [vectorToBytes_elements hn hlength, trim_padded htrim]
  have hspread : (bytesToVector n (bytesValue n a) >>= fun v => spliceSpread v none n) =
      .ok (byteElements (padded n a)) := by
    have helements := spliceSpread_elements (padded n a)
    rw [hlength] at helements
    rw [bytesToVector_bytesValue hn h]
    exact helements
  refine ⟨hlength, hback, fun i what => ?_, fun start len => ⟨?_, ?_⟩, sliceOutOfBounds_iff, hspread,
    ?_, ?_, fun k hk => ⟨_, _, bytesSlice_ok hty hn h ?_, bytesSlice_ok hty hn h ?_,
      concatBytes_slices hn htrim h hk⟩⟩
  · have hwidth : irLength n = .ok n := irLength_of_lt hn
    have href : byteRef (bytesValue n a) ty i = byteAt (bytesValue n a) n i "byte" := by
      simp only [byteRef, hty, hwidth, bind, Except.bind]
    have hindexed : indexedElement (bytesValue n a) (some ty) i what =
        byteAt (bytesValue n a) n i what := by
      simp only [indexedElement, bytesValue, required, hty, hwidth, bind, Except.bind]
    refine ⟨fun b hb => ?_, fun hi => ?_⟩
    · exact ⟨href.trans ((byteAt_bytesValue h i "byte").1 b hb),
        hindexed.trans ((byteAt_bytesValue h i what).1 b hb)⟩
    · obtain ⟨e, he⟩ := (byteAt_bytesValue h i "byte").2 hi
      obtain ⟨e', he'⟩ := (byteAt_bytesValue h i what).2 hi
      exact ⟨⟨e, href.trans he⟩, e', hindexed.trans he'⟩
  · exact bytesSlice_ok hty hn h
  · exact fun hrange => bytesSlice_refused hty (hn.trans (by decide)) hrange _
  · exact (spliceSpread_bytesValue hty h).1
  · intro hone
    refine ((spliceSpread_bytesValue hty h).2 hone).trans ?_
    subst hone
    exact congrArg _ (bytesValue_one htrim h)
  · omega
  · omega

/-- The bytes one, zero and zero, and the slices before and after the first. -/
theorem byteString_three :
    (⟨[1], by decide, by decide⟩ : ByteString 3).array = [1, 0, 0] ∧
    (bytesToVector 3 (bytesValue 3 [1]) >>= vectorToBytes 3) = .ok (bytesValue 3 [1]) ∧
    byteRef (bytesValue 3 [1]) (.bytes 3) 2 = .ok (.integer 0) ∧
    (∃ e, bytesSlice (bytesValue 3 [1]) (.bytes 3) 2 2 = .error e) ∧
    ∃ x y, bytesSlice (bytesValue 3 [1]) (.bytes 3) 0 1 = .ok x ∧
      bytesSlice (bytesValue 3 [1]) (.bytes 3) 1 2 = .ok y ∧
      concatBytes 1 2 x y = .ok (bytesValue 3 [1]) := by
  have harray := byteString_as_array (by decide) (⟨[1], by decide, by decide⟩ : ByteString 3)
    (show (Ty.bytes 3).resolved = .bytes 3 from rfl)
  obtain ⟨-, hback, hindex, hslice, -, -, -, -, hconcat⟩ := harray
  exact ⟨rfl, hback, ((hindex 2 "byte").1 0 rfl).1, (hslice 2 2).2 (by decide),
    hconcat 1 (by decide)⟩

/-- Two bytes do not spread, and a slice whose length leaves 32 bits is refused within its
byte string. -/
theorem byteString_not_array :
    (∃ e, spliceSpread (bytesValue 2 [1, 2]) (some (.bytes 2)) 2 = .error e) ∧
    trim [1, 2] = [1, 2] ∧
    (∃ e, bytesSlice (bytesValue (2 ^ 32 + 1) [7]) (.bytes (2 ^ 32 + 1)) 0 (2 ^ 32) = .error e) ∧
    trim [7] = [7] ∧ 0 + 2 ^ 32 ≤ 2 ^ 32 + 1 := by
  have hrefused : ∃ e, bytesSlice (bytesValue (2 ^ 32 + 1) [7]) (.bytes (2 ^ 32 + 1)) 0 (2 ^ 32) =
      .error e := by
    have hcut : ((padded (2 ^ 32 + 1) [7]).drop 0).take (2 ^ 32) =
        7 :: (List.replicate (2 ^ 32) (0 : UInt8)).take (2 ^ 32 - 1) := by
      rw [List.drop_zero, padded, List.singleton_append, List.take_cons (by decide)]
      rfl
    rw [bytesSlice_eq rfl (by decide) (by decide) (paddedBytes_bytesValue (by decide)), hcut,
      bytesAlignedValue_wrapped (by decide) _ (by decide)]
    exact ⟨_, rfl⟩
  exact ⟨(spliceSpread_bytesValue rfl (by decide)).1 (by decide), by decide, hrefused, by decide,
    by decide⟩

end Slices

end MidnightRs.Circuits
