import MidnightRs.Results
import MidnightRs.TypeRuns

/-!
Tuple and vector literals. A literal splices the elements of its parts together: a
spread of a structured value gives its elements, one of a flat value the slices of its
type, where inference knows it, and else one atom for each element. An empty literal
is void, which no other empty sequence is.
-/
namespace MidnightRs.Circuits

open MidnightRs.Compact Triples

/-- A part of a literal after its evaluation. A spread has the type of its value, which
inference knows or not. -/
inductive Part where
  | single (v : Value)
  | spread (len : ℕ) (known : Bool) (ty : Ty) (v : Value)

namespace Part

/-- What the interpreter splices in. -/
def splice : Part → Result (List Value)
  | single v => .ok [v]
  | spread len known ty v => spliceSpread v (if known then some ty else none) len

/-- The sequence that the part stands for: the elements that indexing the value at its
type gives, and the bytes of a byte string. -/
def elements : Part → Result (List Value)
  | single v => .ok [v]
  | spread len _ ty v =>
    match ty.resolved with
    | .bytes _ => (paddedBytes v len).map (List.map (fun b => .alignedValue (ofU8 b.toNat)))
    | _ => elementsFrom v (some ty) "spread" 0 len

/-- The values that a tuple, a vector or a byte string of a length has. -/
inductive Sequence : Part → Prop where
  | single (v : Value) : Sequence (single v)
  | tuple (known : Bool) (ty : Ty) (vals : List Value) (h : elementCount ty = some vals.length) :
      Sequence (spread vals.length known ty (.tuple vals))
  | flat (len : ℕ) (known : Bool) (ty : Ty) (av : AlignedValue) (h : elementCount ty = some len) :
      Sequence (spread len known ty (.alignedValue av))
  | unit (known : Bool) (ty : Ty) (h : elementCount ty = some 0) :
      Sequence (spread 0 known ty .void)
  | bytes (len : ℕ) (known : Bool) (ty : Ty) (a : Atom) (h : ty.resolved = .bytes len)
      (hlen : a.length ≤ len) (ha : trim a = a) :
      Sequence (spread len known ty (.alignedValue (.single a (.bytes (asU32 len)))))

/-- The parts that are spliced as they are: not the empty value, one byte, and a flat
value whose type is known or whose elements take one atom each. -/
def Spliced : Part → Prop
  | single _ => True
  | spread _ _ _ (.tuple _) => True
  | spread len known ty (.alignedValue av) =>
    match ty.resolved with
    | .bytes _ => len = 1
    | _ => known = true ∨
      av.value.length = len ∧ ∀ i < len, elementAtomRange ty i = some (i, i + 1)
  | spread _ _ _ _ => False

end Part

/-- The parts one by one, up to the first that fails. -/
def eachPart (f : Part → Result (List Value)) : List Part → Result (List (List Value))
  | [] => .ok []
  | p :: parts => (f p).bind (fun xs => (eachPart f parts).map (xs :: ·))

section Layout

theorem atomsOf_concat (types : List Ty) (ty : Ty) (total : ℕ) :
    atomsOf (types ++ [ty]) total =
      (atomsOf types total).bind (fun n => (atomCountForType ty).bind (checkedAdd n)) := by
  induction types generalizing total with
  | nil =>
    simp only [List.nil_append, atomsOf, Option.bind_some]
    cases atomCountForType ty with
    | none => rfl
    | some k => cases hnext : checkedAdd total k <;> simp [hnext]
  | cons t types ih =>
    simp only [List.cons_append, atomsOf]
    cases atomCountForType t with
    | none => rfl
    | some k =>
      cases hnext : checkedAdd total k with
      | none => simp [hnext]
      | some next => simp [hnext, ih]

/-- The atoms of an element end where those of the next one start. -/
theorem elementAtomRange_succ {ty : Ty} {i start stop start' stop' : ℕ}
    (h : elementAtomRange ty i = some (start, stop))
    (h' : elementAtomRange ty (i + 1) = some (start', stop')) : start' = stop := by
  unfold elementAtomRange at h h'
  cases hres : ty.resolved with
  | vector len elem =>
    simp only [hres, Option.bind_eq_some_iff] at h h'
    obtain ⟨len, hlen, h⟩ := h
    obtain ⟨len', hlen', h'⟩ := h'
    split at h
    · cases h
    split at h'
    · cases h'
    simp only [Option.bind_eq_some_iff, Option.map_eq_some_iff, Prod.mk.injEq] at h h'
    obtain ⟨stride, hstride, first, hfirst, last, hlast, rfl, rfl⟩ := h
    obtain ⟨stride', hstride', first', hfirst', last', hlast', rfl, rfl⟩ := h'
    obtain rfl := Option.some.inj (hstride.symm.trans hstride')
    obtain ⟨rfl, -⟩ := toUsize_eq_some hfirst
    obtain ⟨rfl, -⟩ := toUsize_eq_some hlast
    obtain ⟨rfl, -⟩ := toUsize_eq_some hfirst'
    exact Nat.succ_mul i stride
  | tuple types =>
    simp only [hres] at h h'
    split at h
    · cases h
    split at h'
    · cases h'
    simp only [Option.bind_eq_some_iff, Option.map_eq_some_iff, Prod.mk.injEq] at h h'
    obtain ⟨first, hfirst, elem, helem, width, hwidth, last, hlast, rfl, rfl⟩ := h
    obtain ⟨first', hfirst', _, _, _, _, _, _, rfl, _⟩ := h'
    obtain ⟨hi, rfl⟩ := List.getElem?_eq_some_iff.mp helem
    rw [List.take_succ_eq_append_getElem hi, atomsOf_concat, hfirst, Option.bind_some, hwidth,
      Option.bind_some, hlast] at hfirst'
    exact (Option.some.inj hfirst').symm
  | _ => simp [hres] at h

theorem elementAtomRange_zero {ty : Ty} {start stop : ℕ}
    (h : elementAtomRange ty 0 = some (start, stop)) : start = 0 := by
  unfold elementAtomRange at h
  cases hres : ty.resolved with
  | vector len elem =>
    simp only [hres, Option.bind_eq_some_iff] at h
    obtain ⟨len, hlen, h⟩ := h
    split at h
    · cases h
    simp only [Option.bind_eq_some_iff, Option.map_eq_some_iff, Prod.mk.injEq] at h
    obtain ⟨stride, hstride, first, hfirst, last, hlast, rfl, rfl⟩ := h
    obtain ⟨rfl, -⟩ := toUsize_eq_some hfirst
    exact Nat.zero_mul stride
  | tuple types =>
    simp only [hres] at h
    split at h
    · cases h
    simp only [Option.bind_eq_some_iff, Option.map_eq_some_iff, Prod.mk.injEq, List.take_zero,
      atomsOf] at h
    obtain ⟨first, hfirst, _, _, _, _, _, _, rfl, _⟩ := h
    exact (Option.some.inj hfirst).symm
  | _ => simp [hres] at h

end Layout

section Elements

theorem length_sliceAtoms {av slice : AlignedValue} {start stop : ℕ}
    (h : sliceAtoms av start stop = some slice) : slice.value.length = stop - start := by
  unfold sliceAtoms at h
  split at h
  · rename_i hbound
    obtain rfl := Option.some.inj h
    simp only [List.length_drop, List.length_take]
    omega
  · cases h

theorem required_some_bind {α β : Type} (a : α) (message : String) (f : α → Result β) :
    (required (some a) message >>= f) = f a := rfl

/-- Below a type that is no byte string, the range of the element decides. -/
theorem indexedElement_range (av : AlignedValue) {ty : Ty} (hty : ∀ n, ty.resolved ≠ .bytes n)
    (i : ℕ) (what : String) : indexedElement (.alignedValue av) (some ty) i what =
      match elementAtomRange ty i with
      | none =>
        match elementCount ty with
        | none => .error (.typeError s!"cannot {what}-index a flattened value of its type")
        | some len =>
          if len ≤ i then .error (.typeError s!"{what} index {i} out of bounds (len {len})")
          else .error (.typeError s!"cannot lay out {what} element {i}")
      | some (start, stop) =>
        (required (sliceAtoms av start stop)
          s!"{what} index {i} takes atoms that a flattened value does not align").map
            .alignedValue := by
  rw [indexedElement, required_some_bind]
  cases hres : ty.resolved with
  | bytes n => exact absurd hres (hty n)
  | _ => rfl

/-- An element of a flat value is the slice that its type gives it. -/
theorem indexedElement_flat {av : AlignedValue} {ty : Ty} (hty : ∀ n, ty.resolved ≠ .bytes n)
    {i : ℕ} {what : String} {x : Value} : indexedElement (.alignedValue av) (some ty) i what = .ok x ↔
      ∃ start stop slice, elementAtomRange ty i = some (start, stop) ∧
        sliceAtoms av start stop = some slice ∧ x = .alignedValue slice := by
  rw [indexedElement_range av hty i what]
  cases elementAtomRange ty i with
  | none =>
    cases elementCount ty with
    | none => simp
    | some len =>
      by_cases hlen : len ≤ i
      · simp [hlen]
      · simp [hlen]
  | some range =>
    obtain ⟨first, last⟩ := range
    simp only [Option.some.injEq, Prod.mk.injEq]
    cases hslice : sliceAtoms av first last with
    | none =>
      refine iff_of_false (by simp [required, Except.map]) ?_
      rintro ⟨_, _, slice, ⟨rfl, rfl⟩, hsome, -⟩
      rw [hslice] at hsome
      cases hsome
    | some slice =>
      constructor
      · intro h
        exact ⟨first, last, slice, ⟨rfl, rfl⟩, hslice, (Except.ok.inj h).symm⟩
      · rintro ⟨_, _, slice', ⟨rfl, rfl⟩, hsome, rfl⟩
        rw [hslice, Option.some.injEq] at hsome
        rw [hsome]
        rfl

theorem bind_pure_ok {α β : Type} {x : Result α} {y : Result (List β)} {f : α → β} {zs : List β} :
    (x >>= fun a => y >>= fun bs => pure (f a :: bs)) = .ok zs ↔
      ∃ a bs, x = .ok a ∧ y = .ok bs ∧ zs = f a :: bs := by
  cases x with
  | error e => simp [bind, Except.bind]
  | ok a =>
    cases y with
    | error e => simp [bind, Except.bind]
    | ok bs => simp [bind, Except.bind, pure, Except.pure, eq_comm]

/-- Taking the elements atom by atom gives them exactly if each takes one atom. -/
theorem atomElements_iff {av : AlignedValue} {ty : Ty} (hty : ∀ n, ty.resolved ≠ .bytes n)
    {what : String} (n : ℕ) {start : ℕ} {xs : List Value}
    (hfirst : ∀ first stop, elementAtomRange ty start = some (first, stop) → first = start)
    (h : elementsFrom (.alignedValue av) (some ty) what start n = .ok xs) :
    atomElements av start n = .ok xs ↔
      ∀ i < n, elementAtomRange ty (start + i) = some (start + i, start + i + 1) := by
  induction n generalizing start xs with
  | zero =>
    cases h
    exact iff_of_true rfl (fun i hi => absurd hi (Nat.not_lt_zero i))
  | succ n ih =>
    obtain ⟨x, rest, hx, hrest, rfl⟩ := bind_pure_ok.mp h
    obtain ⟨first, stop, slice, hrange, hslice, rfl⟩ := (indexedElement_flat hty).mp hx
    obtain rfl := hfirst first stop hrange
    have hnext : stop = first + 1 → (atomElements av (first + 1) n = .ok rest ↔
        ∀ i < n, elementAtomRange ty (first + 1 + i) = some (first + 1 + i, first + 1 + i + 1)) := by
      intro hstop
      exact ih (fun first' stop' h' => (elementAtomRange_succ hrange h').trans hstop) hrest
    have hatoms : atomElements av first (n + 1) = .ok (.alignedValue slice :: rest) ↔
        sliceAtoms av first (first + 1) = some slice ∧ atomElements av (first + 1) n = .ok rest := by
      refine bind_pure_ok.trans ⟨?_, ?_⟩
      · rintro ⟨a, bs, ha, hbs, heq⟩
        cases heq
        cases hsome : sliceAtoms av first (first + 1) with
        | none =>
          rw [hsome] at ha
          cases ha
        | some b =>
          rw [hsome] at ha
          cases ha
          exact ⟨rfl, hbs⟩
      · rintro ⟨ha, hbs⟩
        exact ⟨slice, rest, by rw [ha]; rfl, hbs, rfl⟩
    rw [hatoms]
    constructor
    · rintro ⟨hone, htail⟩ i hi
      have hwidth := (length_sliceAtoms hslice).symm.trans (length_sliceAtoms hone)
      have hstop : stop = first + 1 := by omega
      cases i with
      | zero => rw [Nat.add_zero, hrange, hstop]
      | succ i =>
        have := (hnext hstop).mp htail i (Nat.lt_of_succ_lt_succ hi)
        rwa [Nat.add_right_comm, Nat.add_assoc first i 1] at this
    · intro hall
      have hone := hall 0 n.succ_pos
      rw [Nat.add_zero, hrange, Option.some.injEq, Prod.mk.injEq] at hone
      obtain ⟨-, rfl⟩ := hone
      refine ⟨hslice, (hnext rfl).mpr (fun i hi => ?_)⟩
      have := hall (i + 1) (Nat.succ_lt_succ hi)
      rwa [Nat.add_right_comm, Nat.add_assoc first i 1]

theorem elementsFrom_tuple (vals : List Value) (ty : Option Ty) (what : String) (n : ℕ) {start : ℕ}
    (h : start + n = vals.length) :
    elementsFrom (.tuple vals) ty what start n = .ok (vals.drop start) := by
  induction n generalizing start with
  | zero =>
    rw [List.drop_eq_nil_of_le (by omega)]
    rfl
  | succ n ih =>
    have hlt : start < vals.length := by omega
    refine bind_pure_ok.mpr ⟨vals[start], vals.drop (start + 1), ?_, ih (by omega), ?_⟩
    · simp only [indexedElement, List.getElem?_eq_getElem hlt]
      rfl
    · exact List.drop_eq_getElem_cons hlt

theorem length_elementsFrom {v : Value} {ty : Option Ty} {what : String} (n : ℕ) {start : ℕ}
    {xs : List Value} (h : elementsFrom v ty what start n = .ok xs) : xs.length = n := by
  induction n generalizing start xs with
  | zero =>
    cases h
    rfl
  | succ n ih =>
    obtain ⟨x, rest, -, hrest, rfl⟩ := bind_pure_ok.mp h
    exact congrArg Nat.succ (ih hrest)

theorem length_atomElements {av : AlignedValue} (n : ℕ) {start : ℕ} {xs : List Value}
    (h : atomElements av start n = .ok xs) : xs.length = n := by
  induction n generalizing start xs with
  | zero =>
    cases h
    rfl
  | succ n ih =>
    obtain ⟨x, rest, -, hrest, rfl⟩ := bind_pure_ok.mp h
    exact congrArg Nat.succ (ih hrest)

end Elements

section Parts

theorem length_splice {v : Value} {ty : Option Ty} {len : ℕ} {xs : List Value}
    (h : spliceSpread v ty len = .ok xs) : xs.length = len := by
  cases v with
  | tuple vals =>
    simp only [spliceSpread] at h
    split at h
    · cases h
    · rename_i hlen
      cases h
      exact not_not.mp hlen
  | alignedValue av =>
    simp only [spliceSpread] at h
    split at h
    · exact length_elementsFrom len h
    · split at h
      · cases h
      · exact length_atomElements len h
  | _ => cases h

theorem length_paddedBytes {v : Value} {len : ℕ} {bytes : Bytes} (h : paddedBytes v len = .ok bytes) :
    bytes.length = len := by
  unfold paddedBytes valueToByteString at h
  split at h
  · split at h
    · cases h
    · cases h
      simp only [List.length_append, List.length_replicate]
      omega
  · cases h

theorem trim_byte {b : UInt8} : trim (toLeBytes 1 b.toNat) = trim [b] := by
  have hb : UInt8.ofNat (b.toNat % 256) = b := by
    rw [Nat.mod_eq_of_lt b.toNat_lt, UInt8.ofNat_toNat]
  rw [toLeBytes, hb]
  rfl

/-- One byte is the element of its byte string. -/
theorem splice_byte {a : Atom} (hlen : a.length ≤ 1) (ha : trim a = a) (ty : Option Ty)
    (hty : ty.bind elementCount ≠ some 1) :
    spliceSpread (.alignedValue (.single a (.bytes 1))) ty 1 =
      (paddedBytes (.alignedValue (.single a (.bytes 1))) 1).map
        (List.map (fun b => .alignedValue (ofU8 b.toNat))) := by
  have hsplice : spliceSpread (.alignedValue (.single a (.bytes 1))) ty 1 =
      .ok [.alignedValue (.single a (.bytes 1))] := by
    simp only [spliceSpread, if_neg hty]
    rfl
  rw [hsplice]
  rcases a with _ | ⟨b, _ | ⟨b', a⟩⟩
  · rfl
  · have hbyte : ofU8 b.toNat = .single [b] (.bytes 1) := by
      rw [ofU8, trim_byte, ha]
    simp [paddedBytes, valueToByteString, AlignedValue.single, Except.map] at hbyte ⊢
    exact hbyte.symm
  · simp only [List.length_cons] at hlen
    omega

theorem bytes_elementCount {ty : Ty} {n : ℕ} (h : ty.resolved = .bytes n) : elementCount ty = none := by
  unfold elementCount
  rw [h]

theorem not_bytes_of_count {ty : Ty} {len : ℕ} (h : elementCount ty = some len) (n : ℕ) :
    ty.resolved ≠ .bytes n := by
  intro hres
  rw [bytes_elementCount hres] at h
  cases h

/-- A part is spliced as the sequence it stands for exactly under the condition. -/
theorem splice_iff {p : Part} (hp : p.Sequence) {xs : List Value} (hxs : p.elements = .ok xs) :
    p.splice = .ok xs ↔ p.Spliced := by
  have hsequence : ∀ {len : ℕ} {known : Bool} {ty : Ty} {v : Value}, elementCount ty = some len →
      (Part.spread len known ty v).elements = elementsFrom v (some ty) "spread" 0 len := by
    intro len known ty v hcount
    unfold Part.elements
    dsimp only
    split
    · rename_i n hres
      exact absurd hres (not_bytes_of_count hcount n)
    · rfl
  cases hp with
  | single v => exact iff_of_true hxs trivial
  | tuple known ty vals hcount =>
    rw [hsequence hcount, elementsFrom_tuple vals _ _ _ (Nat.zero_add _), List.drop_zero] at hxs
    refine iff_of_true ?_ trivial
    rw [← hxs]
    simp [Part.splice, spliceSpread]
  | unit known ty hcount => exact iff_of_false (by simp [Part.splice, spliceSpread]) not_false
  | flat len known ty av hcount =>
    have hty := not_bytes_of_count hcount
    rw [hsequence hcount] at hxs
    have hspliced : (Part.spread len known ty (.alignedValue av)).Spliced ↔ known = true ∨
        av.value.length = len ∧ ∀ i < len, elementAtomRange ty i = some (i, i + 1) := by
      simp only [Part.Spliced]
    rw [hspliced]
    cases known with
    | true =>
      refine iff_of_true ?_ (.inl rfl)
      simp only [Part.splice, if_true, spliceSpread, Option.bind_some, hcount]
      exact hxs
    | false =>
      have hatoms := atomElements_iff hty len
        (fun first stop h => elementAtomRange_zero h) hxs
      simp only [Nat.zero_add] at hatoms
      simp only [Part.splice, Bool.false_eq_true, if_false, spliceSpread, Option.bind_none,
        reduceCtorEq, false_or, ← hatoms]
      by_cases hlen : av.value.length = len
      · simp [hlen]
      · simp [hlen]
  | bytes len known ty a hres hlen ha =>
    have hcount := bytes_elementCount hres
    have helements : (Part.spread len known ty
        (.alignedValue (.single a (.bytes (asU32 len))))).elements =
        (paddedBytes (.alignedValue (.single a (.bytes (asU32 len)))) len).map
          (List.map (fun b => .alignedValue (ofU8 b.toNat))) := by
      simp only [Part.elements, hres]
    have hspliced : (Part.spread len known ty
        (.alignedValue (.single a (.bytes (asU32 len))))).Spliced ↔ len = 1 := by
      simp only [Part.Spliced, hres]
    have hbind : (if known then some ty else none : Option Ty).bind elementCount = none := by
      cases known
      · rfl
      · exact hcount
    rw [hspliced]
    by_cases hone : len = 1
    · subst hone
      refine iff_of_true ?_ rfl
      rw [helements] at hxs
      exact (splice_byte hlen ha _ (by rw [hbind]; simp)).trans hxs
    · refine iff_of_false (fun h => ?_) hone
      simp only [Part.splice, spliceSpread, hbind, reduceCtorEq, if_false] at h
      split at h
      · cases h
      · rename_i hatoms
        exact hone (not_not.mp hatoms).symm

theorem length_elements {p : Part} (hp : p.Sequence) {xs ys : List Value} (hxs : p.elements = .ok xs)
    (hys : p.splice = .ok ys) : ys.length = xs.length := by
  cases p with
  | single v =>
    cases hxs
    cases hys
    rfl
  | spread len known ty v =>
    rw [length_splice hys]
    unfold Part.elements at hxs
    dsimp only at hxs
    split at hxs
    · obtain ⟨bytes, hbytes, rfl⟩ := Results.map_ok_iff.mp hxs
      rw [List.length_map, length_paddedBytes hbytes]
    · exact (length_elementsFrom len hxs).symm

theorem eachPart_cons (f : Part → Result (List Value)) (p : Part) (parts : List Part) :
    eachPart f (p :: parts) = (f p).bind (fun xs => (eachPart f parts).map (xs :: ·)) := rfl

theorem eachPart_cons_ok {f : Part → Result (List Value)} {p : Part} {parts : List Part}
    {xss : List (List Value)} : eachPart f (p :: parts) = .ok xss ↔
      ∃ xs rest, f p = .ok xs ∧ eachPart f parts = .ok rest ∧ xss = xs :: rest := by
  rw [eachPart_cons]
  cases f p with
  | error e => simp [Except.bind]
  | ok xs =>
    cases eachPart f parts with
    | error e => simp [Except.bind, Except.map]
    | ok rest => simp [Except.bind, Except.map, eq_comm]

/-- The parts are spliced together as their sequences exactly if each one is. -/
theorem eachPart_splice_iff {parts : List Part} (hparts : ∀ p ∈ parts, p.Sequence)
    {xss : List (List Value)} (hxss : eachPart Part.elements parts = .ok xss) :
    (∃ yss, eachPart Part.splice parts = .ok yss ∧ yss.flatten = xss.flatten) ↔
      ∀ p ∈ parts, p.Spliced := by
  induction parts generalizing xss with
  | nil =>
    cases hxss
    exact iff_of_true ⟨[], rfl, rfl⟩ (List.forall_mem_nil _)
  | cons p parts ih =>
    obtain ⟨hp, hrest⟩ := List.forall_mem_cons.mp hparts
    obtain ⟨xs, rest, hxs, hrestXs, rfl⟩ := eachPart_cons_ok.mp hxss
    rw [List.forall_mem_cons, ← splice_iff hp hxs, ← ih hrest hrestXs]
    constructor
    · rintro ⟨_, hyss, hflat⟩
      obtain ⟨ys, rest', hys, hrestYs, rfl⟩ := eachPart_cons_ok.mp hyss
      -- A spliced part has as many elements as its sequence, so the parts line up.
      obtain ⟨rfl, htail⟩ := List.append_inj hflat (length_elements hp hxs hys)
      exact ⟨hys, rest', hrestYs, htail⟩
    · rintro ⟨hys, rest', hrestYs, hflat⟩
      refine ⟨xs :: rest', eachPart_cons_ok.mpr ⟨xs, rest', hys, hrestYs, rfl⟩, ?_⟩
      rw [List.flatten_cons, List.flatten_cons, hflat]

end Parts

section Literals

variable {c : Codecs} (crypto : Crypto c) {vm : Vm} (program : Program) (env : Env vm)
  (eval : Expr → Exec vm Value)

/-- The parts of a literal evaluate in turn to these. -/
inductive Gives : ExecContext vm → List TupleArg → List Part → ExecContext vm → Prop where
  | nil (s : ExecContext vm) : Gives s [] [] s
  | single {s t u : ExecContext vm} {e : Expr} {v : Value} {args : List TupleArg}
      {parts : List Part} (heval : (eval e).run s = .ok (v, t)) (hrest : Gives t args parts u) :
      Gives s (.single e :: args) (.single v :: parts) u
  | spread {s t u : ExecContext vm} {len : ℕ} {e : Expr} {known : Bool} {ty : Ty} {v : Value}
      {args : List TupleArg} {parts : List Part} (hlen : len < usizeBound)
      (htype : infer program s.localTypes e = if known then some ty else none)
      (heval : (eval e).run s = .ok (v, t)) (hrest : Gives t args parts u) :
      Gives s (.spread len e :: args) (.spread len known ty v :: parts) u

variable {program eval}

theorem evalSpread_run {len : ℕ} (hlen : len < usizeBound) (e : Expr) (s : ExecContext vm) :
    (evalTupleArg program eval (.spread len e)).run s = (eval e).run s >>= fun r =>
      match spliceSpread r.1 (infer program s.localTypes e) len with
      | .error e => .error (.error e)
      | .ok xs => .ok (xs, r.2) := by
  have hexpected : irLength len = .ok len := if_pos hlen
  simp only [evalTupleArg, hexpected]
  change ((eval e).run s >>= fun r =>
    (result (spliceSpread r.1 (infer program s.localTypes e) len) : Exec vm _) r.2) = _
  cases (eval e).run s with
  | error halt => rfl
  | ok r =>
    change (result (spliceSpread r.1 (infer program s.localTypes e) len) : Exec vm _) r.2 =
      match spliceSpread r.1 (infer program s.localTypes e) len with
      | .error e => Except.error (Halt.error e)
      | .ok xs => .ok (xs, r.2)
    cases spliceSpread r.1 (infer program s.localTypes e) len <;> rfl

theorem each_evalTupleArg {s u : ExecContext vm} {args : List TupleArg} {parts : List Part}
    (h : Gives program eval s args parts u) : (each (evalTupleArg program eval) args).run s =
      match eachPart Part.splice parts with
      | .ok xss => .ok (xss, u)
      | .error e => .error (.error e) := by
  induction h with
  | nil s => rfl
  | @single s t u e v args parts heval _ ih =>
    have hstep : (each (evalTupleArg program eval) (.single e :: args)).run s =
        (eval e).run s >>= fun r => (each (evalTupleArg program eval) args).run r.2 >>= fun r' =>
          .ok ([r.1] :: r'.1, r'.2) := by
      change ((eval e).run s >>= fun r => _) >>= _ = _
      cases (eval e).run s <;> rfl
    rw [hstep, heval]
    change ((each (evalTupleArg program eval) args).run t >>= fun r' => _) = _
    rw [ih, eachPart_cons, Part.splice]
    cases eachPart Part.splice parts <;> rfl
  | @spread s t u len e known ty v args parts hlen htype heval _ ih =>
    have hstep : (each (evalTupleArg program eval) (.spread len e :: args)).run s =
        (eval e).run s >>= fun r =>
          match spliceSpread r.1 (infer program s.localTypes e) len with
          | .error e => .error (.error e)
          | .ok xs => (each (evalTupleArg program eval) args).run r.2 >>= fun r' =>
            .ok (xs :: r'.1, r'.2) := by
      change (evalTupleArg program eval (.spread len e)).run s >>= _ = _
      rw [evalSpread_run hlen]
      cases (eval e).run s with
      | error halt => rfl
      | ok r =>
        change (match spliceSpread r.1 (infer program s.localTypes e) len with
          | .error e => Except.error (Halt.error e)
          | .ok xs => .ok (xs, r.2)) >>= _ = match spliceSpread r.1 (infer program s.localTypes e) len with
          | .error e => Except.error (Halt.error e)
          | .ok xs => _
        cases spliceSpread r.1 (infer program s.localTypes e) len <;> rfl
    rw [hstep, heval, htype, eachPart_cons, Part.splice]
    change (match spliceSpread v (if known then some ty else none) len with
      | .error e => Except.error (Halt.error e)
      | .ok xs => (each (evalTupleArg program eval) args).run t >>= fun r' => _) = _
    cases spliceSpread v (if known then some ty else none) len with
    | error e => rfl
    | ok xs =>
      dsimp only
      rw [ih]
      cases eachPart Part.splice parts <;> rfl

variable (c) in
/-- The value is taken as the sequence wherever one is: encoded, spread, and indexed,
as an iteration does too. -/
structure LikeSequence (v : Value) (xs : List Value) : Prop where
  encoded : ∀ ty, encodeTyped c v ty = encodeTyped c (.tuple xs) ty
  spread : ∀ ty len, spliceSpread v ty len = spliceSpread (.tuple xs) ty len
  indexed : ∀ ty i what, indexedElement v ty i what = indexedElement (.tuple xs) ty i what

theorem splice_own_length (xs : List Value) :
    spliceSpread (.tuple xs) none xs.length = .ok xs := by
  simp [spliceSpread]

theorem likeSequence_tuple_iff {ys xs : List Value} : LikeSequence c (.tuple ys) xs ↔ ys = xs := by
  constructor
  · intro h
    have hspread := (h.spread none xs.length).trans (splice_own_length xs)
    have hlen : ys.length = xs.length := by
      by_contra hne
      simp [spliceSpread, hne] at hspread
    rw [← hlen, splice_own_length, Except.ok.injEq] at hspread
    exact hspread
  · rintro rfl
    exact ⟨fun _ => rfl, fun _ _ => rfl, fun _ _ _ => rfl⟩

theorem not_likeSequence_void (xs : List Value) : ¬ LikeSequence c .void xs := by
  intro h
  have hspread := (h.spread none xs.length).trans (splice_own_length xs)
  simp [spliceSpread] at hspread

theorem literal_run (vector : Bool) {s u : ExecContext vm} {args : List TupleArg}
    {parts : List Part} (h : Gives program eval s args parts u) :
    (evalNode crypto program env eval (.tuple vector args)).run s =
      match eachPart Part.splice parts with
      | .ok xss => .ok (if xss.flatten.isEmpty then .void else .tuple xss.flatten, u)
      | .error e => .error (.error e) := by
  change (each (evalTupleArg program eval) args).run s >>= (fun r =>
    ((if r.1.flatten.isEmpty then pure .void else pure (.tuple r.1.flatten) : Exec vm Value)).run r.2)
      = _
  rw [each_evalTupleArg h]
  cases eachPart Part.splice parts with
  | error e => rfl
  | ok xss =>
    cases hempty : xss.flatten.isEmpty with
    | true =>
      change ((if xss.flatten.isEmpty then pure .void else pure (.tuple xss.flatten) :
        Exec vm Value)).run u = .ok (if xss.flatten.isEmpty then .void else _, u)
      rw [hempty]
      rfl
    | false =>
      change ((if xss.flatten.isEmpty then pure .void else pure (.tuple xss.flatten) :
        Exec vm Value)).run u = .ok (if xss.flatten.isEmpty then _ else .tuple xss.flatten, u)
      rw [hempty]
      rfl

/-- A literal is the sequence of its parts exactly if each spread is spliced as its
sequence and the whole is not empty. The other empty sequences are empty tuples. -/
theorem literal_flattens_iff (vector : Bool) (args : List TupleArg) (parts : List Part)
    (s u : ExecContext vm) (hgives : Gives program eval s args parts u)
    (hparts : ∀ p ∈ parts, p.Sequence) (xss : List (List Value))
    (hxss : eachPart Part.elements parts = .ok xss) :
    ((∃ v, (evalNode crypto program env eval (.tuple vector args)).run s = .ok (v, u) ∧
      LikeSequence c v xss.flatten) ↔ (∀ p ∈ parts, p.Spliced) ∧ xss.flatten ≠ []) ∧
    (∀ v ty start, sliceElements v ty start 0 = .ok (.tuple [])) ∧
    (∀ ty, defaultValue crypto.elements (.vector 0 ty) = .ok (.tuple [])) ∧
    ∀ fn, (evalNode crypto program env eval (.map 0 fn [])).run s = .ok (.tuple [], s) := by
  refine ⟨?_, fun v ty start => rfl, fun ty => rfl, fun fn => rfl⟩
  rw [← eachPart_splice_iff hparts hxss, literal_run crypto env vector hgives]
  cases hsplice : eachPart Part.splice parts with
  | error e => simp
  | ok yss =>
    simp only [Except.ok.injEq, Prod.mk.injEq, and_true, exists_eq_left']
    cases hempty : yss.flatten.isEmpty with
    | true =>
      rw [if_pos rfl]
      refine iff_of_false (not_likeSequence_void _) ?_
      rintro ⟨hflat, hne⟩
      exact hne (hflat ▸ List.isEmpty_iff.mp hempty)
    | false =>
      rw [if_neg Bool.false_ne_true, likeSequence_tuple_iff]
      refine ⟨fun hflat => ⟨hflat, fun hnil => ?_⟩, And.left⟩
      rw [hflat, hnil] at hempty
      cases hempty

end Literals

section Samples

def trueExpr : Expr := .quote (.bool true)

/-- A literal of true and the elements of another literal. -/
theorem literal_flattens_iff_spread :
    ∃ v, (evalNode plainCrypto ⟨[], [], []⟩ plainEnv (evalExpr plainCrypto ⟨[], [], []⟩ plainEnv 3)
        (.tuple true [.single trueExpr, .spread 1 (.tuple true [.single trueExpr])])).run
          (initialContext () []) = .ok (v, initialContext () []) ∧
      LikeSequence plainCodecs v [.bool true, .bool true] := by
  have hgives : Gives ⟨[], [], []⟩ (evalExpr plainCrypto ⟨[], [], []⟩ plainEnv 3)
      (initialContext () [] : ExecContext plainVm)
      [.single trueExpr, .spread 1 (.tuple true [.single trueExpr])]
      [.single (.bool true), .spread 1 true (.tuple [.boolean]) (.tuple [.bool true])]
      (initialContext () []) := by
    refine .single rfl (.spread (by decide) rfl rfl (.nil _))
  refine (literal_flattens_iff plainCrypto plainEnv true _ _ _ _ hgives ?_
    [[.bool true], [.bool true]] rfl).1.mpr ⟨?_, by simp⟩
  · intro p hp
    rcases List.mem_cons.mp hp with rfl | hp
    · exact .single _
    · obtain rfl := List.mem_singleton.mp hp
      exact .tuple true (.tuple [.boolean]) [.bool true] rfl
  · intro p hp
    rcases List.mem_cons.mp hp with rfl | hp
    · trivial
    · obtain rfl := List.mem_singleton.mp hp
      trivial

/-- The empty literal is void, which has no encoding as an empty vector and cannot be
spread; and a byte string of two bytes cannot be spread either. -/
theorem empty_literal_unlike :
    (evalExpr plainCrypto ⟨[], [], []⟩ plainEnv 3 (.tuple true [])).run
        (initialContext () [] : ExecContext plainVm) = .ok (.void, initialContext () []) ∧
      ¬ LikeSequence plainCodecs .void [] ∧
      encodeTyped plainCodecs .void (.vector 0 .boolean) =
        .error (.cannotEncode .void (.vector 0 .boolean)) ∧
      encodeTyped plainCodecs (.tuple []) (.vector 0 .boolean) = .ok .unit ∧
      ((evalExpr plainCrypto ⟨[], [], []⟩ plainEnv 3
        (.tuple true [.spread 0 (.tuple true []), .single trueExpr])).run
          (initialContext () [] : ExecContext plainVm)).isOk = false ∧
      ((evalExpr plainCrypto ⟨[], [], []⟩ plainEnv 3
        (.tuple true [.spread 2 (.quote (.bytes [1, 2]))])).run
          (initialContext () [] : ExecContext plainVm)).isOk = false :=
  ⟨rfl, not_likeSequence_void [], rfl, rfl, by decide +kernel, by decide +kernel⟩

end Samples

end MidnightRs.Circuits
