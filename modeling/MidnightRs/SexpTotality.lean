import MidnightRs.SexpReader

/-!
The reader ends on every text. Each step that returns a value stands between two
characters and has read at least one byte, so the fuel of a source suffices and
no slice cuts a character.
-/
namespace MidnightRs.SexpReader

open AnalyzedIr (Sexp)
open Utf8

section Advances

variable {α β : Type} {bs bs' : Bytes}

/-- A step that ends, and past a byte when it returns. -/
def Outcome.Advances (bs : Bytes) : Outcome α → Prop
  | .value _ rest => OnBoundary rest ∧ rest.length < bs.length
  | .refused _ _ => True
  | .panicked => False
  | .outOfFuel => False

theorem Outcome.Advances.bind {o : Outcome α} {f : α → Bytes → Outcome β} (h : o.Advances bs)
    (hf : ∀ a rest, OnBoundary rest → rest.length < bs.length → (f a rest).Advances bs) :
    (o.bind f).Advances bs := by
  cases o with
  | value a rest => exact hf a rest h.1 h.2
  | refused rest message => trivial
  | panicked => exact h
  | outOfFuel => exact h

theorem Outcome.Advances.mono {o : Outcome α} (h : o.Advances bs) (hle : bs.length ≤ bs'.length) :
    o.Advances bs' := by
  cases o with
  | value a rest => exact ⟨h.1, lt_of_lt_of_le h.2 hle⟩
  | refused rest message => trivial
  | panicked => exact h
  | outOfFuel => exact h

/-- A slice between two boundaries returns its text. -/
theorem slice_eq {start rest : Bytes} (hstart : OnBoundary start) (hrest : OnBoundary rest) :
    slice start rest = .value (decode (start.take (start.length - rest.length))) rest := by
  rw [slice, hstart.isCharBoundary, hrest.isCharBoundary]
  rfl

theorem forall_byte {p : UInt8 → Prop} (h : ∀ n < 256, p (UInt8.ofNat n)) (b : UInt8) : p b := by
  have hb := h b.toNat b.toNat_lt
  rwa [UInt8.ofNat_toNat] at hb

theorem toNat_of_isDelimiter (c : UInt8) : isDelimiter c = true → c.toNat < 128 := by
  revert c
  exact forall_byte (by decide +kernel)

theorem toNat_of_isAsciiHexdigit (c : UInt8) : isAsciiHexdigit c = true → c.toNat < 128 := by
  revert c
  exact forall_byte (by decide +kernel)

theorem isPlain_of_le (c : UInt8) : 128 ≤ c.toNat → isPlain c = true := by
  revert c
  exact forall_byte (by decide +kernel)

theorem isDelimiter_of_isClosing {c : UInt8} (h : isClosing c = true) : isDelimiter c = true := by
  simp [isDelimiter, h]

theorem isDelimiter_of_isOpening {c : UInt8} (h : isOpening c = true) : isDelimiter c = true := by
  simp [isDelimiter, h]

theorem isDelimiter_of_isAsciiWhitespace {c : UInt8} (h : isAsciiWhitespace c = true) :
    isDelimiter c = true := by
  simp [isDelimiter, h]

end Advances

section Scanning

variable {bs : Bytes}

theorem skipComment_eq (bs : Bytes) :
    skipComment bs = skipWs ((bs.dropWhile (fun c => c != ascii '\n')).drop 1) := by
  induction bs with
  | nil => rfl
  | cons c bs ih =>
    rw [skipComment]
    split
    case isTrue h => simp [h]
    case isFalse h => simp [h, ih]

theorem onBoundary_afterComment (h : OnBoundary bs) :
    OnBoundary ((bs.dropWhile (fun c => c != ascii '\n')).drop 1) := by
  have hstop := h.dropWhile (p := fun c => c != ascii '\n') (by
    intro b hb
    simp only [bne_iff_ne, ne_eq]
    rintro rfl
    revert hb
    decide)
  refine hstop.drop 1 ?_
  intro x hx
  cases hdrop : bs.dropWhile (fun c => c != ascii '\n') with
  | nil => simp [hdrop] at hx
  | cons y ys =>
    have hy := List.head?_dropWhile_not (fun c => c != ascii '\n') bs
    rw [hdrop] at hx hy
    simp only [List.head?_cons, bne_eq_false_iff_eq] at hy
    simp only [List.take_succ_cons, List.take_zero, List.mem_singleton] at hx
    rw [hx, hy]
    decide

/-- Skipping stops between two characters, and never moves back. -/
theorem skipWs_spec (h : OnBoundary bs) :
    OnBoundary (skipWs bs) ∧ (skipWs bs).length ≤ bs.length := by
  obtain ⟨n, hn⟩ : ∃ n, bs.length = n := ⟨_, rfl⟩
  induction n using Nat.strong_induction_on generalizing bs with
  | _ n ih =>
    cases bs with
    | nil => exact ⟨h, le_rfl⟩
    | cons c rest =>
      rw [skipWs]
      split
      case isTrue hc =>
        have hascii := toNat_of_isDelimiter c (isDelimiter_of_isAsciiWhitespace hc)
        obtain ⟨hon, hlen⟩ := ih rest.length (by simp [← hn]) (h.tail hascii) rfl
        exact ⟨hon, hlen.trans (Nat.le_succ _)⟩
      split
      case isTrue hc =>
        have htail : OnBoundary rest := h.tail (by rw [hc]; decide)
        have hle : ((rest.dropWhile (fun c => c != ascii '\n')).drop 1).length ≤ rest.length := by
          rw [List.length_drop]
          have := (List.dropWhile_suffix (fun c => c != ascii '\n') (l := rest)).length_le
          omega
        rw [skipComment_eq]
        obtain ⟨hon, hlen⟩ := ih _ (by simp only [List.length_cons] at hn; omega)
          (onBoundary_afterComment htail) rfl
        exact ⟨hon, hlen.trans (hle.trans (Nat.le_succ _))⟩
      case isFalse hc => exact ⟨h, le_rfl⟩

end Scanning

section Tokens

variable {bs : Bytes}

theorem length_dropWhile_le (p : UInt8 → Bool) (bs : Bytes) :
    (bs.dropWhile p).length ≤ bs.length :=
  (List.dropWhile_suffix p).length_le

/-- A token stops at a delimiter, or at the end. -/
theorem onBoundary_token (h : OnBoundary bs) :
    OnBoundary (bs.dropWhile (fun c => !isDelimiter c)) := by
  refine h.dropWhile ?_
  intro b hb
  cases hd : isDelimiter b with
  | true =>
    have := toNat_of_isDelimiter b hd
    omega
  | false => rfl

theorem readAtom_advances (h : OnBoundary bs) : (readAtom bs).Advances bs := by
  simp only [readAtom]
  split
  case isTrue hstop => trivial
  case isFalse hstop =>
    rw [slice_eq h (onBoundary_token h)]
    refine ⟨onBoundary_token h, lt_of_le_of_ne (length_dropWhile_le _ bs) ?_⟩
    intro hlen
    exact hstop ((List.dropWhile_suffix _).eq_of_length hlen)

theorem readScalar_advances (h : OnBoundary bs) : (readScalar bs).Advances bs := by
  have hstop := h.dropWhile_ascii (p := isAsciiHexdigit) toNat_of_isAsciiHexdigit
  have hle := length_dropWhile_le isAsciiHexdigit bs
  rw [readScalar, slice_eq h hstop]
  simp only [Outcome.bind]
  cases hrest : bs.dropWhile isAsciiHexdigit with
  | nil => trivial
  | cons c rest =>
    rw [hrest] at hstop hle
    dsimp only
    split
    case isTrue hc =>
      cases scalarOf (decode (bs.take (bs.length - (c :: rest).length))) with
      | some scalar => exact ⟨hstop.tail (by rw [hc]; decide), hle⟩
      | none => trivial
    case isFalse hc => trivial

theorem readEscape_advances (h : OnBoundary bs) : (readEscape bs).Advances bs := by
  cases bs with
  | nil => trivial
  | cons c rest =>
    rw [readEscape]
    cases hfind : escapes.find? (fun e => ascii e.1 == c) with
    | some e =>
      have hc : ascii e.1 = c := by simpa using List.find?_some hfind
      have hascii : ∀ e ∈ escapes, (ascii e.1).toNat < 128 := by decide
      exact ⟨h.tail (hc ▸ hascii e (List.mem_of_find?_eq_some hfind)), Nat.lt_succ_self _⟩
    | none =>
      dsimp only
      split
      case isTrue hc =>
        exact (readScalar_advances (h.tail (by rw [hc]; decide))).mono (Nat.le_succ _)
      case isFalse hc => trivial

theorem readText_advances (fuel : ℕ) (out : List Char) (h : OnBoundary bs)
    (hfuel : bs.length < fuel) : (readText fuel out bs).Advances bs := by
  induction fuel generalizing out bs with
  | zero => omega
  | succ fuel ih =>
    have hstop := h.dropWhile (p := isPlain) isPlain_of_le
    have hle := length_dropWhile_le isPlain bs
    rw [readText, slice_eq h hstop]
    simp only [Outcome.bind]
    cases hrest : bs.dropWhile isPlain with
    | nil => trivial
    | cons c rest =>
      rw [hrest] at hstop hle
      have hc : isPlain c = false := by
        have hhead := List.head?_dropWhile_not isPlain bs
        rwa [hrest] at hhead
      have htail : OnBoundary rest := hstop.tail (by
        by_contra hnot
        have := isPlain_of_le c (by omega)
        rw [hc] at this
        cases this)
      simp only [List.length_cons] at hle
      dsimp only
      split
      case isTrue hq => exact ⟨htail, hle⟩
      case isFalse hq =>
        refine ((readEscape_advances htail).mono (by omega)).bind ?_
        intro scalar rest' hon hlen
        exact (ih _ hon (by omega)).mono (by omega)

theorem readElements_advances (fuel : ℕ) (bytes : Bytes) (h : OnBoundary bs)
    (hfuel : bs.length < fuel) : (readElements fuel bytes bs).Advances bs := by
  induction fuel generalizing bytes bs with
  | zero => omega
  | succ fuel ih =>
    obtain ⟨hon, hle⟩ := skipWs_spec h
    rw [readElements]
    cases hrest : skipWs bs with
    | nil => trivial
    | cons c rest =>
      rw [hrest] at hon hle
      dsimp only
      split
      case isTrue hc => exact ⟨hon.tail (by rw [hc]; decide), hle⟩
      case isFalse hc =>
        refine ((readAtom_advances hon).mono hle).bind ?_
        intro atom rest' hon' hlen
        cases atom with
        | int i =>
          dsimp only
          split
          case isTrue hi => exact (ih _ hon' (by omega)).mono (by omega)
          case isFalse hi => trivial
        | _ => trivial

/-- Past an ASCII text that the input begins with. -/
theorem onBoundary_drop {pre : Bytes} (h : OnBoundary bs) (hpre : pre <+: bs)
    (hascii : pre.all (fun x => decide (x.toNat < 128)) = true) :
    OnBoundary (bs.drop pre.length) := by
  refine h.drop pre.length ?_
  obtain ⟨rest, rfl⟩ := hpre
  rw [List.take_left]
  intro x hx
  exact of_decide_eq_true (List.all_eq_true.mp hascii x hx)

theorem readHash_advances (h : OnBoundary bs) : (readHash bs).Advances bs := by
  rw [readHash]
  split
  case isTrue hpre =>
    have hlen : 2 ≤ bs.length := hpre.length_le
    refine ⟨onBoundary_drop h hpre (by decide), ?_⟩
    rw [List.length_drop]
    omega
  split
  case isTrue hpre =>
    have hlen : 2 ≤ bs.length := hpre.length_le
    refine ⟨onBoundary_drop h hpre (by decide), ?_⟩
    rw [List.length_drop]
    omega
  split
  case isTrue hpre =>
    have hon : OnBoundary (bs.drop 5) := onBoundary_drop h hpre (by decide)
    have hle : (bs.drop 5).length ≤ bs.length := by
      rw [List.length_drop]
      omega
    exact (readElements_advances _ [] hon (by omega)).mono hle
  case isFalse hpre => trivial

end Tokens

section Data

variable {bs : Bytes}

theorem read_and_readList_advance (fuel : ℕ) :
    (∀ bs, OnBoundary bs → 2 * bs.length + 1 ≤ fuel → (read fuel bs).Advances bs) ∧
    (∀ items bs, OnBoundary bs → 2 * bs.length + 2 ≤ fuel →
      (readList fuel items bs).Advances bs) := by
  induction fuel with
  | zero =>
    refine ⟨?_, ?_⟩
    · intro bs _ hfuel
      omega
    · intro items bs _ hfuel
      omega
  | succ fuel ih =>
    obtain ⟨ihRead, ihList⟩ := ih
    refine ⟨?_, ?_⟩
    · intro bs h hfuel
      obtain ⟨hon, hle⟩ := skipWs_spec h
      rw [read]
      cases hrest : skipWs bs with
      | nil => trivial
      | cons c rest =>
        rw [hrest] at hon hle
        simp only [List.length_cons] at hle
        dsimp only
        split
        case isTrue hc =>
          have htail := hon.tail (toNat_of_isDelimiter c (isDelimiter_of_isOpening hc))
          exact (ihList [] rest htail (by omega)).mono (by omega)
        split
        case isTrue hc => trivial
        split
        case isTrue hc =>
          have htail : OnBoundary rest := hon.tail (by rw [hc]; decide)
          refine ((ihRead rest htail (by omega)).mono (by omega)).bind ?_
          intro quoted rest' hon' hlen
          exact ⟨hon', hlen⟩
        split
        case isTrue hc =>
          have htail : OnBoundary rest := hon.tail (by rw [hc]; decide)
          exact (readText_advances _ [] htail (Nat.lt_succ_self _)).mono (by omega)
        split
        case isTrue hc => exact (readHash_advances hon).mono hle
        case isFalse hc => exact (readAtom_advances hon).mono hle
    · intro items bs h hfuel
      obtain ⟨hon, hle⟩ := skipWs_spec h
      rw [readList]
      cases hrest : skipWs bs with
      | nil => trivial
      | cons c rest =>
        rw [hrest] at hon hle
        simp only [List.length_cons] at hle
        dsimp only
        split
        case isTrue hc =>
          exact ⟨hon.tail (toNat_of_isDelimiter c (isDelimiter_of_isClosing hc)), hle⟩
        split
        case isTrue hc =>
          have htail : OnBoundary rest := hon.tail (by rw [hc.1]; decide)
          refine ((ihRead rest htail (by omega)).mono (by omega)).bind ?_
          intro tail rest' hon' hlen
          obtain ⟨hon'', hle''⟩ := skipWs_spec hon'
          cases hclose : skipWs rest' with
          | nil => trivial
          | cons d final =>
            rw [hclose] at hon'' hle''
            simp only [List.length_cons] at hle''
            dsimp only
            split
            case isTrue hd =>
              have hfinal := hon''.tail (toNat_of_isDelimiter d (isDelimiter_of_isClosing hd))
              split
              · exact ⟨hfinal, by omega⟩
              · trivial
            case isFalse hd => trivial
        case isFalse hc =>
          refine ((ihRead (c :: rest) hon (by simp only [List.length_cons]; omega)).mono hle).bind ?_
          intro item rest' hon' hlen
          exact (ihList _ rest' hon' (by omega)).mono (by omega)

/-- Every source is read to its end, or refused. -/
theorem readOne_ends (src : String) :
    (∃ datum, readOne src = .value datum []) ∨
    ∃ rest message, readOne src = .refused rest message := by
  have h := (read_and_readList_advance (2 * (encode src.toList).length + 1)).1 _
    (OnBoundary.encode src.toList) le_rfl
  rw [readOne]
  cases hread : read (2 * (encode src.toList).length + 1) (encode src.toList) with
  | value datum rest =>
    simp only [Outcome.bind]
    cases skipWs rest with
    | nil => exact Or.inl ⟨datum, rfl⟩
    | cons c rest => exact Or.inr ⟨_, _, rfl⟩
  | refused rest message => exact Or.inr ⟨rest, message, rfl⟩
  | panicked =>
    rw [hread] at h
    exact h.elim
  | outOfFuel =>
    rw [hread] at h
    exact h.elim

end Data

end MidnightRs.SexpReader
