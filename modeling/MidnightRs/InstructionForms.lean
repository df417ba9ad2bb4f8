import MidnightRs.Results
import MidnightRs.Transcripts

/-!
What the instructions of a ledger operation denote. An operand that is out of range,
or of a kind that has no place where it stands, denotes nothing, so that an
instruction is built faithfully exactly when the operation is the one denoted.
-/
namespace MidnightRs.Circuits

open MidnightRs.Compact Triples Results

/-- The operands that no other operand is encoded through. -/
def Operand.Plain : Operand → Prop
  | .valueToInt _ => False
  | .leafHash _ => False
  | .alignedConcat _ => False
  | .stateValue .null => True
  | .stateValue (.merkleTree _ _) => True
  | .stateValue _ => False
  | _ => True

section Induct

variable {P : Operand → Prop} (plain : ∀ o : Operand, o.Plain → P o)
  (valueToInt : ∀ x, P x → P (.valueToInt x)) (leafHash : ∀ x, P x → P (.leafHash x))
  (alignedConcat : ∀ parts, (∀ x ∈ parts, P x) → P (.alignedConcat parts))
  (cell : ∀ x, P x → P (.stateValue (.cell x)))
  (adt : ∀ x ty, P x → P (.stateValue (.adt x ty)))
  (array : ∀ elements, (∀ x ∈ elements, P x) → P (.stateValue (.array elements)))
  (map : ∀ entries : List (Operand × Operand), (∀ entry ∈ entries, P entry.1 ∧ P entry.2) →
    P (.stateValue (.map entries)))
include plain valueToInt leafHash alignedConcat cell adt array map

set_option linter.unusedSectionVars false in
mutual

theorem Operand.induct : ∀ o, P o
  | .valueToInt x => valueToInt x (Operand.induct x)
  | .leafHash x => leafHash x (Operand.induct x)
  | .alignedConcat parts => alignedConcat parts (Operand.inductEach parts)
  | .stateValue value => Operand.inductState value
  | .int n => plain (.int n) trivial
  | .bool b => plain (.bool b) trivial
  | .str s => plain (.str s) trivial
  | .align value bytes => plain (.align value bytes) trivial
  | .stack => plain .stack trivial
  | .void => plain .void trivial
  | .null ty => plain (.null ty) trivial
  | .maxSizeof ty => plain (.maxSizeof ty) trivial
  | .add x y => plain (.add x y) trivial
  | .coinCommit coin recipient => plain (.coinCommit coin recipient) trivial
  | .expr e => plain (.expr e) trivial
  | .list items => plain (.list items) trivial

theorem Operand.inductState : ∀ value, P (.stateValue value)
  | .null => plain (.stateValue .null) trivial
  | .cell x => cell x (Operand.induct x)
  | .adt x ty => adt x ty (Operand.induct x)
  | .array elements => array elements (Operand.inductEach elements)
  | .map entries => map entries (Operand.inductEntries entries)
  | .merkleTree depth entries => plain (.stateValue (.merkleTree depth entries)) trivial

theorem Operand.inductEach : ∀ xs : List Operand, ∀ x ∈ xs, P x
  | [] => fun _ h => by cases h
  | x :: xs => List.forall_mem_cons.mpr ⟨Operand.induct x, Operand.inductEach xs⟩

theorem Operand.inductEntries :
    ∀ entries : List (Operand × Operand), ∀ entry ∈ entries, P entry.1 ∧ P entry.2
  | [] => fun _ h => by cases h
  | (k, v) :: entries =>
    List.forall_mem_cons.mpr ⟨⟨Operand.induct k, Operand.induct v⟩, Operand.inductEntries entries⟩

end

end Induct

/-- A ledger type, whose values are containers. -/
def NamedTy.IsAdt : NamedTy → Prop
  | .adt _ _ => True
  | _ => False

section Denotation

variable {c : Codecs} (crypto : Crypto c) {vm : Vm} (program : Program)
  (eval : Expr → Exec vm Value)

/-- A flag that is not given is off. -/
inductive FlagOf (i : Instruction) (name : String) : Bool → Prop where
  | absent (h : i.arg name = none) : FlagOf i name false
  | given {b : Bool} (h : i.arg name = some (.bool b)) : FlagOf i name b

/-- The count that an operand stands for, of any size. A type counts the bytes of its
alignment, which its default has. -/
inductive CountOf : Operand → ℕ → Prop where
  | int {z : ℤ} {n : ℕ} (h : z = n) : CountOf (.int z) n
  | maxSizeof {ty : Ty} {v : Value} {av : AlignedValue}
      (hdefault : defaultValue crypto.elements ty = .ok v) (hencode : encodeTyped c v ty = .ok av)
      (halign : av.alignment = alignment ty) :
      CountOf (.maxSizeof ty) (crypto.maxAlignedSize (alignment ty))
  | add {x y : Operand} {m n : ℕ} (hx : CountOf x m) (hy : CountOf y n) :
      CountOf (.add x y) (m + n)

/-- The operand of that name is a count below the bound. -/
def CountArgOf (bound : ℕ) (i : Instruction) (name : String) (n : ℕ) : Prop :=
  ∃ o ∈ i.arg name, CountOf crypto o n ∧ n < bound

/-- A stack slot, which is the top one where none is given. -/
inductive SlotOf (i : Instruction) : ℕ → Prop where
  | absent (h : i.arg "n" = none) : SlotOf i 0
  | given {n : ℕ} (h : CountArgOf crypto (2 ^ 8) i "n" n) : SlotOf i n

/-- The aligned value of an operand. A value of a ledger type has none, and a constant
has one at a width that an alignment records. -/
inductive AlignedOf : Operand → ExecContext vm → AlignedValue → ExecContext vm → Prop where
  | expr {e : Expr} {s t : ExecContext vm} {v : Value} {av : AlignedValue}
      (heval : Runs (eval e) s v t)
      (hencode : encodeInferred (c := c) v (infer program s.localTypes e) = .ok av) :
      AlignedOf (.expr e) s av t
  | align {value bytes : ℕ} {s : ExecContext vm} (hbytes : bytes < 2 ^ 32)
      (hvalue : value < 256 ^ bytes) :
      AlignedOf (.align value bytes) s
        (.single (trim (toLeBytes bytes value)) (.bytes (max 1 bytes))) s
  | int {z : ℤ} {n : ℕ} {s : ExecContext vm} (h : z = n) (hn : n < 2 ^ 64) :
      AlignedOf (.int z) s (.single (trim (toLeBytes 8 n)) (.bytes 8)) s
  | bool {b : Bool} {s : ExecContext vm} : AlignedOf (.bool b) s (ofBool b) s
  | null {ty : Ty} {v : Value} {av : AlignedValue} {s : ExecContext vm}
      (hdefault : defaultValue crypto.elements ty = .ok v) (hencode : encodeTyped c v ty = .ok av)
      (halign : av.alignment = alignment ty) : AlignedOf (.null ty) s av s
  | leafHash {x : Operand} {s t : ExecContext vm} {av : AlignedValue} (h : AlignedOf x s av t) :
      AlignedOf (.leafHash x) s (crypto.leafHash av) t
  | alignedConcat {parts : List Operand} {s t : ExecContext vm} {avs : List AlignedValue}
      (h : InTurn AlignedOf parts s avs t) : AlignedOf (.alignedConcat parts) s (.concat avs) t
  | valueToInt {x : Operand} {s t : ExecContext vm} {av : AlignedValue} (h : AlignedOf x s av t) :
      AlignedOf (.valueToInt x) s av t
  | cell {x : Operand} {s t : ExecContext vm} {av : AlignedValue} (h : AlignedOf x s av t) :
      AlignedOf (.stateValue (.cell x)) s av t
  | adt {x : Operand} {ty : NamedTy} {s t : ExecContext vm} {av : AlignedValue}
      (hty : ¬ ty.IsAdt) (h : AlignedOf x s av t) : AlignedOf (.stateValue (.adt x ty)) s av t

inductive KeyOf : Operand → ExecContext vm → Key → ExecContext vm → Prop where
  | stack {s : ExecContext vm} : KeyOf .stack s .stack s
  | value {o : Operand} {s t : ExecContext vm} {av : AlignedValue}
      (h : AlignedOf crypto program eval o s av t) : KeyOf o s (.value av) t

/-- The state value of an operand. A value without a container is pushed in a cell, and
the one ledger type that has an empty value is a map. -/
inductive StateOf : Operand → ExecContext vm → vm.State → ExecContext vm → Prop where
  | null {s : ExecContext vm} : StateOf (.stateValue .null) s vm.null s
  | cell {o : Operand} {s t : ExecContext vm} {av : AlignedValue}
      (h : AlignedOf crypto program eval o s av t) : StateOf o s (vm.cell av) t
  | emptyMap {args : List AdtArg} {s : ExecContext vm} :
      StateOf (.stateValue (.adt (.expr (.default (.adt "Map" args))) (.adt "Map" args))) s
        (vm.map []) s
  | array {elements : List Operand} {s t : ExecContext vm} {states : List vm.State}
      (h : InTurn StateOf elements s states t) :
      StateOf (.stateValue (.array elements)) s (vm.array states) t
  | map {entries : List (Operand × Operand)} {s t : ExecContext vm}
      {states : List (AlignedValue × vm.State)}
      (h : InTurn (Both (AlignedOf crypto program eval) StateOf) entries s states t) :
      StateOf (.stateValue (.map entries)) s (vm.map states) t
  | merkleTree {depth : ℕ} {s : ExecContext vm} (h : depth < 2 ^ 8) :
      StateOf (.stateValue (.merkleTree depth [])) s (vm.blankMerkleTree depth) s

/-- The number of an immediate. -/
inductive ImmediateOf : Operand → ExecContext vm → ℕ → ExecContext vm → Prop where
  | int {z : ℤ} {n : ℕ} {s : ExecContext vm} (h : z = n) (hn : n < 2 ^ 32) :
      ImmediateOf (.int z) s n s
  | expr {e : Expr} {s t : ExecContext vm} {n : ℕ} (heval : Runs (eval e) s (.integer n) t)
      (hn : n < 2 ^ 32) : ImmediateOf (.expr e) s n t
  | valueToInt {x : Operand} {s t : ExecContext vm} {n : ℕ} (h : ImmediateOf x s n t) :
      ImmediateOf (.valueToInt x) s n t
  | cell {x : Operand} {s t : ExecContext vm} {n : ℕ} (h : ImmediateOf x s n t) :
      ImmediateOf (.stateValue (.cell x)) s n t
  | adt {x : Operand} {ty : NamedTy} {s t : ExecContext vm} {n : ℕ} (hty : ¬ ty.IsAdt)
      (h : ImmediateOf x s n t) : ImmediateOf (.stateValue (.adt x ty)) s n t

/-- The instructions without operands. -/
def plainOp {State : Type} : OpName → Option (Op State)
  | .member => some .member
  | .root => some .root
  | .eq => some .eq
  | .lt => some .lt
  | .ckpt => some .ckpt
  | .neg => some .neg
  | .add => some .add
  | .pop => some .pop
  | .size => some .size
  | .type => some .type
  | .log => some .log
  | _ => none

/-- What an instruction denotes, in a state of the run that its expressions change. -/
inductive OperationOf (i : Instruction) : ExecContext vm → Op vm.State → ExecContext vm → Prop where
  | idx {s t : ExecContext vm} {cached pushPath : Bool} {path : List Operand} {keys : List Key}
      (hop : i.op = .idx) (hcached : FlagOf i "cached" cached)
      (hpush : FlagOf i "pushPath" pushPath) (hpath : i.arg "path" = some (.list path))
      (hkeys : InTurn (KeyOf crypto program eval) path s keys t) :
      OperationOf i s (.idx cached pushPath keys) t
  | push {s t : ExecContext vm} {storage : Bool} {o : Operand} {value : vm.State}
      (hop : i.op = .push) (hstorage : FlagOf i "storage" storage) (ho : o ∈ i.arg "value")
      (hvalue : StateOf crypto program eval o s value t) : OperationOf i s (.push storage value) t
  | addi {s t : ExecContext vm} {o : Operand} {n : ℕ} (hop : i.op = .addi)
      (ho : o ∈ i.arg "immediate") (hn : ImmediateOf eval o s n t) : OperationOf i s (.addi n) t
  | subi {s t : ExecContext vm} {o : Operand} {n : ℕ} (hop : i.op = .subi)
      (ho : o ∈ i.arg "immediate") (hn : ImmediateOf eval o s n t) : OperationOf i s (.subi n) t
  | ins {s : ExecContext vm} {cached : Bool} {n : ℕ} (hop : i.op = .ins)
      (hcached : FlagOf i "cached" cached) (hn : CountArgOf crypto (2 ^ 8) i "n" n) :
      OperationOf i s (.ins cached n) s
  | dup {s : ExecContext vm} {n : ℕ} (hop : i.op = .dup) (hn : SlotOf crypto i n) :
      OperationOf i s (.dup n) s
  | swap {s : ExecContext vm} {n : ℕ} (hop : i.op = .swap) (hn : SlotOf crypto i n) :
      OperationOf i s (.swap n) s
  | popeq {s : ExecContext vm} {cached : Bool} (hop : i.op = .popeq)
      (hcached : FlagOf i "cached" cached) : OperationOf i s (.popeq cached) s
  | rem {s : ExecContext vm} {cached : Bool} (hop : i.op = .rem)
      (hcached : FlagOf i "cached" cached) : OperationOf i s (.rem cached) s
  | noop {s : ExecContext vm} {n : ℕ} (hop : i.op = .noop)
      (hn : CountArgOf crypto (2 ^ 32) i "n" n) : OperationOf i s (.noop n) s
  | branch {s : ExecContext vm} {skip : ℕ} (hop : i.op = .branch)
      (hskip : CountArgOf crypto (2 ^ 32) i "skip" skip) : OperationOf i s (.branch skip) s
  | jmp {s : ExecContext vm} {skip : ℕ} (hop : i.op = .jmp)
      (hskip : CountArgOf crypto (2 ^ 32) i "skip" skip) : OperationOf i s (.jmp skip) s
  | concat {s : ExecContext vm} {cached : Bool} {n : ℕ} (hop : i.op = .concat)
      (hcached : FlagOf i "cached" cached) (hn : CountArgOf crypto (2 ^ 32) i "n" n) :
      OperationOf i s (.concat cached n) s
  | plain {s : ExecContext vm} {op : Op vm.State} (hop : plainOp i.op = some op) :
      OperationOf i s op s

end Denotation

section Fits

/-- The flag is a Boolean, where it is given. -/
def FitsFlag (i : Instruction) (name : String) : Prop := ∀ o ∈ i.arg name, ∃ b, o = .bool b

/-- The types that are counted have defaults of their own alignment. -/
def FitsCount : Operand → Prop
  | .maxSizeof ty => Throughout DefaultKept ty
  | .add x y => FitsCount x ∧ FitsCount y
  | _ => True

mutual

/-- The constants have a width that an alignment records, the types have defaults of
their own alignment, and no value is one of a ledger type. -/
def FitsAligned : Operand → Prop
  | .align _ bytes => bytes < 2 ^ 32
  | .null ty => Throughout DefaultKept ty
  | .leafHash x => FitsAligned x
  | .alignedConcat parts => FitsAlignedEach parts
  | .valueToInt x => FitsAligned x
  | .stateValue value => FitsAlignedState value
  | _ => True

def FitsAlignedState : StateValue → Prop
  | .cell x => FitsAligned x
  | .adt x ty => ¬ ty.IsAdt ∧ FitsAligned x
  | _ => True

def FitsAlignedEach : List Operand → Prop
  | [] => True
  | x :: xs => FitsAligned x ∧ FitsAlignedEach xs

end

/-- Nothing but the null state value comes to no value. -/
def FitsScalar (o : Operand) : Prop :=
  (reduceOperand o = .void ∨ reduceOperand o = .stack → o = .stateValue .null) ∧ FitsAligned o

mutual

def FitsPush : Operand → Prop
  | .stateValue value => FitsPushState value
  | o => FitsScalar o

/-- A value of a ledger type is the default of that type. -/
def FitsPushState : StateValue → Prop
  | .array elements => FitsPushEach elements
  | .map entries => FitsPushEntries entries
  | .adt x ty => (ty.IsAdt ∧ x = .expr (.default ty)) ∨ FitsScalar (.stateValue (.adt x ty))
  | .merkleTree _ _ => True
  | .cell x => FitsScalar (.stateValue (.cell x))
  | .null => True

def FitsPushEach : List Operand → Prop
  | [] => True
  | x :: xs => FitsPush x ∧ FitsPushEach xs

def FitsPushEntries : List (Operand × Operand) → Prop
  | [] => True
  | (k, v) :: entries => FitsAligned k ∧ FitsPush v ∧ FitsPushEntries entries

end

variable {c : Codecs} (crypto : Crypto c)

/-- Every operand that is given has a place where it stands. -/
def FitsInstruction (i : Instruction) : Prop :=
  match i.op with
  | .idx => FitsFlag i "cached" ∧ FitsFlag i "pushPath" ∧
      ∀ path, i.arg "path" = some (.list path) → ∀ o ∈ path, FitsAligned o
  | .push => FitsFlag i "storage" ∧ ∀ o ∈ i.arg "value", FitsPush o
  | .addi => ∀ o ∈ i.arg "immediate", FitsAligned o
  | .subi => ∀ o ∈ i.arg "immediate", FitsAligned o
  | .ins => FitsFlag i "cached" ∧ ∀ o ∈ i.arg "n", FitsCount o
  | .dup => ∀ o ∈ i.arg "n", ∃ n < 2 ^ 8, CountOf crypto o n
  | .swap => ∀ o ∈ i.arg "n", ∃ n < 2 ^ 8, CountOf crypto o n
  | .popeq => FitsFlag i "cached"
  | .rem => FitsFlag i "cached"
  | .noop => ∀ o ∈ i.arg "n", FitsCount o
  | .branch => ∀ o ∈ i.arg "skip", FitsCount o
  | .jmp => ∀ o ∈ i.arg "skip", FitsCount o
  | .concat => FitsFlag i "cached" ∧ ∀ o ∈ i.arg "n", FitsCount o
  | _ => True

end Fits

section Counts

variable {c : Codecs} (crypto : Crypto c)

theorem flagOf_flag {i : Instruction} {name : String} (h : FitsFlag i name) :
    FlagOf i name (flag i name) := by
  unfold flag
  cases harg : i.arg name with
  | none => exact .absent harg
  | some o =>
    obtain ⟨b, rfl⟩ := h o harg
    cases b <;> exact .given harg

theorem FlagOf.fits {i : Instruction} {name : String} {b : Bool} (h : FlagOf i name b) :
    FitsFlag i name := by
  intro o ho
  cases h with
  | absent h => exact absurd (h.symm.trans ho) (by simp)
  | given h => exact ⟨_, Option.some.inj (ho.symm.trans h)⟩

/-- The default of a type has its alignment exactly when the type's parts have such
defaults, and then it is the one that is encoded. -/
theorem default_encodes {ty : Ty} (h : Throughout DefaultKept ty) {v : Value} {av : AlignedValue}
    (hv : defaultValue crypto.elements ty = .ok v) (hav : encodeTyped c v ty = .ok av) :
    av.alignment = alignment ty := by
  obtain ⟨v', av', hv', hav', halign⟩ := (default_alignment_iff crypto.elements ty).mpr h
  obtain rfl := Except.ok.inj (hv.symm.trans hv')
  obtain rfl := Except.ok.inj (hav.symm.trans hav')
  exact halign

theorem maxSizeof_ok {ty : Ty} {n : ℕ} (h : maxSizeof crypto ty = .ok n) :
    ∃ v av, defaultValue crypto.elements ty = .ok v ∧ encodeTyped c v ty = .ok av ∧
      n = crypto.maxAlignedSize av.alignment := by
  obtain ⟨v, hv, h⟩ := exists_of_bind h
  obtain ⟨av, hav, h⟩ := exists_of_bind h
  refine ⟨v, av, hv, hav, ?_⟩
  dsimp only at h
  split at h
  · exact (Except.ok.inj h).symm
  · cases h

theorem countOf_of_ok {op : OpName} {name : String} {o : Operand} {n : ℕ}
    (h : countOperand crypto op name o = .ok n) (hfit : FitsCount o) : CountOf crypto o n := by
  fun_induction countOperand crypto op name o generalizing n with
  | case1 z hz =>
    refine .int ?_
    rw [← Except.ok.inj h, Int.toNat_of_nonneg hz.1]
  | case2 z hz => cases h
  | case3 ty =>
    obtain ⟨v, av, hv, hav, rfl⟩ := maxSizeof_ok crypto h
    have halign := default_encodes crypto hfit hv hav
    rw [halign]
    exact .maxSizeof hv hav halign
  | case4 x y ihx ihy =>
    obtain ⟨l, hl, h⟩ := exists_of_bind h
    obtain ⟨r, hr, h⟩ := exists_of_bind h
    split at h
    · rw [← Except.ok.inj h]
      exact .add (ihx hl hfit.1) (ihy hr hfit.2)
    · cases h
  | case5 => cases h

theorem CountOf.fits {o : Operand} {n : ℕ} (h : CountOf crypto o n) : FitsCount o := by
  induction h with
  | int h => trivial
  | maxSizeof hdefault hencode halign =>
    exact (default_alignment_iff crypto.elements _).mp ⟨_, _, hdefault, hencode, halign⟩
  | add hx hy ihx ihy => exact ⟨ihx, ihy⟩

/-- A count that a word holds is the one that is computed. -/
theorem CountOf.computed {op : OpName} {name : String} {o : Operand} {n : ℕ}
    (h : CountOf crypto o n) (hn : n < 2 ^ 64) : countOperand crypto op name o = .ok n := by
  induction h with
  | @int z n h =>
    subst h
    exact if_pos ⟨Int.natCast_nonneg n, by exact_mod_cast hn⟩
  | @maxSizeof ty v av hdefault hencode halign =>
    rw [← halign] at hn ⊢
    simp only [countOperand, Circuits.maxSizeof, hdefault, hencode, bind, Except.bind, if_pos hn]
    rfl
  | @add x y m n hx hy ihx ihy =>
    simp only [countOperand, ihx (by omega), ihy (by omega), bind, Except.bind, if_pos hn]
    rfl

theorem required_ok {α : Type} {x : Option α} {what : String} {a : α}
    (h : required x what = .ok a) : x = some a := by
  cases x with
  | none => cases h
  | some a' => exact congrArg some (Except.ok.inj h)

theorem countArg_ok {bound : ℕ} {i : Instruction} {name : String} {n : ℕ}
    (h : countArg crypto bound i name = .ok n) :
    ∃ o ∈ i.arg name, countOperand crypto i.op name o = .ok n ∧ n < bound := by
  obtain ⟨o, ho, h⟩ := exists_of_bind h
  obtain ⟨m, hm, h⟩ := exists_of_bind h
  split at h
  · rename_i hbound
    obtain rfl := Except.ok.inj h
    exact ⟨o, required_ok ho, hm, hbound⟩
  · cases h

theorem countArgOf_of_ok {bound : ℕ} {i : Instruction} {name : String} {n : ℕ}
    (h : countArg crypto bound i name = .ok n) (hfit : ∀ o ∈ i.arg name, FitsCount o) :
    CountArgOf crypto bound i name n := by
  obtain ⟨o, ho, hn, hbound⟩ := countArg_ok crypto h
  exact ⟨o, ho, countOf_of_ok crypto hn (hfit o ho), hbound⟩

theorem FlagOf.unique {i : Instruction} {name : String} {b b' : Bool} (h : FlagOf i name b)
    (h' : FlagOf i name b') : b = b' := by
  cases h with
  | absent h =>
    cases h' with
    | absent => rfl
    | given h' => cases h.symm.trans h'
  | given h =>
    cases h' with
    | absent h' => cases h.symm.trans h'
    | given h' => exact Operand.bool.inj (Option.some.inj (h.symm.trans h'))

theorem CountOf.unique {o : Operand} {n n' : ℕ} (h : CountOf crypto o n)
    (h' : CountOf crypto o n') : n = n' := by
  induction h generalizing n' with
  | int h =>
    cases h' with
    | int h' => exact Int.ofNat.inj (h.symm.trans h')
  | maxSizeof =>
    cases h' with
    | maxSizeof => rfl
  | add hx hy ihx ihy =>
    cases h' with
    | add hx' hy' => rw [ihx hx', ihy hy']

theorem CountArgOf.unique {bound : ℕ} {i : Instruction} {name : String} {n n' : ℕ}
    (h : CountArgOf crypto bound i name n) (h' : CountArgOf crypto bound i name n') : n = n' := by
  obtain ⟨o, ho, hn, -⟩ := h
  obtain ⟨o', ho', hn', -⟩ := h'
  obtain rfl := Option.mem_unique ho ho'
  exact hn.unique crypto hn'

theorem CountArgOf.fits {bound : ℕ} {i : Instruction} {name : String} {n : ℕ}
    (h : CountArgOf crypto bound i name n) : ∀ o ∈ i.arg name, FitsCount o := by
  obtain ⟨o, ho, hn, -⟩ := h
  intro o' ho'
  obtain rfl := Option.mem_unique ho ho'
  exact hn.fits

/-- A slot that is given and counts less than 256 is the one that is used. -/
theorem slotOf_u8ArgOrZero {i : Instruction}
    (hfit : ∀ o ∈ i.arg "n", ∃ n < 2 ^ 8, CountOf crypto o n) :
    SlotOf crypto i (u8ArgOrZero crypto i "n") := by
  unfold u8ArgOrZero u8Arg
  cases harg : i.arg "n" with
  | none =>
    obtain ⟨e, hmissing⟩ : ∃ e, countArg crypto (2 ^ 8) i "n" = .error e := by
      unfold countArg operand
      rw [harg]
      exact ⟨_, rfl⟩
    rw [hmissing]
    exact .absent harg
  | some o =>
    obtain ⟨n, hn, hcount⟩ := hfit o harg
    have hgiven : countArg crypto (2 ^ 8) i "n" = .ok n := by
      unfold countArg operand
      rw [harg]
      change (countOperand crypto i.op "n" o >>= _) = _
      rw [hcount.computed crypto (by omega)]
      exact if_pos hn
    rw [hgiven]
    exact .given ⟨o, harg, hcount, hn⟩

theorem SlotOf.unique {i : Instruction} {n n' : ℕ} (h : SlotOf crypto i n)
    (h' : SlotOf crypto i n') : n = n' := by
  cases h with
  | absent h =>
    cases h' with
    | absent => rfl
    | given h' =>
      obtain ⟨o, ho, -⟩ := h'
      cases h.symm.trans ho
  | given hn =>
    cases h' with
    | absent h' =>
      obtain ⟨o, ho, -⟩ := hn
      cases h'.symm.trans ho
    | given hn' => exact hn.unique crypto hn'

theorem SlotOf.fits {i : Instruction} {n : ℕ} (h : SlotOf crypto i n) :
    ∀ o ∈ i.arg "n", ∃ n < 2 ^ 8, CountOf crypto o n := by
  intro o ho
  cases h with
  | absent h => exact absurd (h.symm.trans ho) (by simp)
  | given h =>
    obtain ⟨o', ho', hn, hbound⟩ := h
    obtain rfl := Option.mem_unique ho ho'
    exact ⟨n, hbound, hn⟩

end Counts

section Values

variable {c : Codecs} (crypto : Crypto c) {vm : Vm} (program : Program)
  (eval : Expr → Exec vm Value)

theorem runs_result_iff {α : Type} {r : Result α} {s t : ExecContext vm} {a : α} :
    Runs (result r : Exec vm α) s a t ↔ r = .ok a ∧ t = s := by
  refine runs_lift_iff.trans (and_congr_left fun _ => ⟨mapError_ok, ?_⟩)
  rintro rfl
  rfl

theorem uintByteWidth_maxForBytes (bytes : ℕ) :
    uintByteWidth (maxForBytes bytes) = max 1 bytes := by
  rcases bytes with _ | n
  · rfl
  · have hpow : 2 ^ (8 * n + 7) < 2 ^ (8 * (n + 1)) := Nat.pow_lt_pow_right (by omega) (by omega)
    have hpos : 0 < 2 ^ (8 * n + 7) := Nat.two_pow_pos _
    have hne : maxForBytes (n + 1) ≠ 0 := by
      unfold maxForBytes
      omega
    have hlog : (maxForBytes (n + 1)).log2 = 8 * n + 7 := by
      refine (Nat.log2_eq_iff hne).mpr ?_
      unfold maxForBytes
      constructor
      · omega
      · exact Nat.sub_lt (Nat.two_pow_pos _) Nat.one_pos
    rw [uintByteWidth, if_neg hne, hlog]
    omega

/-- A constant of a narrow width is encoded at that width. -/
theorem literalKey_ok {value bytes : ℕ} {av : AlignedValue}
    (h : literalKey (c := c) value bytes = .ok av) (hbytes : bytes < 2 ^ 32) :
    value < 256 ^ bytes ∧
      av = .single (trim (toLeBytes bytes value)) (.bytes (max 1 bytes)) := by
  unfold literalKey at h
  split at h
  · rename_i hvalue
    change encodeUnsigned (maxForBytes bytes) (.integer value) = .ok av at h
    obtain ⟨n, hn, hmax, -⟩ := encodeUnsigned_number h
    obtain rfl := Option.some.inj hn
    have hlt : value < 256 ^ bytes := by
      have hpos : 0 < 2 ^ (8 * bytes) := Nat.two_pow_pos _
      have hpow : (256 : ℕ) ^ bytes = 2 ^ (8 * bytes) := by rw [Nat.pow_mul]
      unfold maxForBytes at hmax
      omega
    refine ⟨hlt, ?_⟩
    rw [encodeUnsigned_integer hmax hvalue, bytesAlignedValue, uintByteWidth_maxForBytes] at h
    have hwidth : asU32 (max 1 bytes) = max 1 bytes := Nat.mod_eq_of_lt (by omega)
    split at h
    · rw [← Except.ok.inj h, hwidth, trim_toLeBytes_eq u128Bytes bytes value hvalue hlt]
    · cases h
  · cases h

theorem operandsAligned_eq (xs : List Operand) :
    operandsAligned crypto program eval xs = each (operandAligned crypto program eval) xs := by
  induction xs with
  | nil => rfl
  | cons x xs ih =>
    rw [operandsAligned, ih]
    rfl

theorem fitsAlignedEach_iff (xs : List Operand) :
    FitsAlignedEach xs ↔ ∀ x ∈ xs, FitsAligned x := by
  induction xs with
  | nil => exact iff_of_true trivial (fun x hx => by cases hx)
  | cons x xs ih => rw [FitsAlignedEach, ih, List.forall_mem_cons]

variable {crypto program eval}

/-- An operand that fits is encoded as it denotes. -/
theorem alignedOf_of_runs (o : Operand) : ∀ {s t : ExecContext vm} {av : AlignedValue},
    Runs (operandAligned crypto program eval o) s av t → FitsAligned o →
      AlignedOf crypto program eval o s av t := by
  induction o using Operand.induct with
  | plain o ho =>
    intro s t av h hfit
    cases o with
    | int z =>
      rcases runs_ite.mp h with ⟨hz, h⟩ | ⟨-, h⟩
      · obtain ⟨rfl, rfl⟩ := runs_pure_iff.mp h
        have hn : z.toNat < 2 ^ 64 := by omega
        have htrim : trim (toLeBytes u128Bytes z.toNat) = trim (toLeBytes 8 z.toNat) :=
          trim_toLeBytes_eq _ _ _ (lt_of_lt_of_le hn (by decide)) hn
        rw [htrim]
        exact .int (Int.toNat_of_nonneg hz.1).symm hn
      · exact (not_runs_stop h).elim
    | bool b =>
      obtain ⟨rfl, rfl⟩ := runs_pure_iff.mp h
      exact .bool
    | align value bytes =>
      obtain ⟨hkey, rfl⟩ := runs_result_iff.mp h
      obtain ⟨hvalue, rfl⟩ := literalKey_ok hkey hfit
      exact .align hfit hvalue
    | null ty =>
      obtain ⟨hnull, rfl⟩ := runs_result_iff.mp h
      obtain ⟨v, hv, hav⟩ := exists_of_bind hnull
      exact .null hv hav (default_encodes crypto hfit hv hav)
    | expr e =>
      obtain ⟨inferred, u, hinfer, h⟩ := runs_bind_iff.mp h
      obtain ⟨v, w, heval, h⟩ := runs_bind_iff.mp h
      obtain ⟨hencode, rfl⟩ := runs_result_iff.mp h
      cases hinfer
      exact .expr heval hencode
    | stateValue value =>
      cases value with
      | null => exact (not_runs_stop h).elim
      | merkleTree depth entries => exact (not_runs_stop h).elim
      | _ => exact ho.elim
    | valueToInt x => exact ho.elim
    | leafHash x => exact ho.elim
    | alignedConcat parts => exact ho.elim
    | _ => exact (not_runs_stop h).elim
  | valueToInt x ih => exact fun h hfit => .valueToInt (ih h hfit)
  | leafHash x ih =>
    intro s t av h hfit
    obtain ⟨inner, u, hinner, h⟩ := runs_bind_iff.mp h
    obtain ⟨rfl, rfl⟩ := runs_pure_iff.mp h
    exact .leafHash (ih hinner hfit)
  | alignedConcat parts ih =>
    intro s t av h hfit
    obtain ⟨avs, u, hparts, h⟩ := runs_bind_iff.mp h
    obtain ⟨rfl, rfl⟩ := runs_pure_iff.mp h
    rw [operandsAligned_eq] at hparts
    have hfits := (fitsAlignedEach_iff parts).mp hfit
    exact .alignedConcat (runs_each hparts (fun x hx s av t hrun => ih x hx hrun (hfits x hx)))
  | cell x ih => exact fun h hfit => .cell (ih h hfit)
  | adt x ty ih => exact fun h hfit => .adt hfit.1 (ih h hfit.2)
  | array elements ih => exact fun h _ => (not_runs_stop h).elim
  | map entries ih => exact fun h _ => (not_runs_stop h).elim

/-- An operand that has an aligned value fits. -/
theorem AlignedOf.fits (o : Operand) : ∀ {s t : ExecContext vm} {av : AlignedValue},
    AlignedOf crypto program eval o s av t → FitsAligned o := by
  induction o using Operand.induct with
  | plain o ho =>
    intro s t av h
    cases h with
    | align hbytes hvalue => exact hbytes
    | null hdefault hencode halign =>
      exact (default_alignment_iff crypto.elements _).mp ⟨_, _, hdefault, hencode, halign⟩
    | expr => trivial
    | int => trivial
    | bool => trivial
    | _ => exact ho.elim
  | valueToInt x ih =>
    intro s t av h
    cases h with
    | valueToInt h => exact ih h
  | leafHash x ih =>
    intro s t av h
    cases h with
    | leafHash h => exact ih h
  | alignedConcat parts ih =>
    intro s t av h
    cases h with
    | alignedConcat h =>
      exact (fitsAlignedEach_iff parts).mpr (h.forall (fun x hx _ _ _ hx' => ih x hx hx'))
  | cell x ih =>
    intro s t av h
    cases h with
    | cell h => exact ih h
  | adt x ty ih =>
    intro s t av h
    cases h with
    | adt hty h => exact ⟨hty, ih h⟩
  | array elements ih =>
    intro s t av h
    cases h
  | map entries ih =>
    intro s t av h
    cases h

/-- An operand that comes to no value has no aligned value. -/
theorem AlignedOf.reduces (o : Operand) : ∀ {s t : ExecContext vm} {av : AlignedValue},
    AlignedOf crypto program eval o s av t →
      ¬ (reduceOperand o = .void ∨ reduceOperand o = .stack) := by
  induction o using Operand.induct with
  | valueToInt x ih =>
    intro s t av h
    cases h with
    | valueToInt h => exact ih h
  | cell x ih =>
    intro s t av h
    cases h with
    | cell h => exact ih h
  | adt x ty ih =>
    intro s t av h
    cases h with
    | adt hty h => exact ih h
  | plain o ho =>
    intro s t av h
    cases h <;> simp_all [reduceOperand, Operand.Plain]
  | leafHash x ih => simp [reduceOperand]
  | alignedConcat parts ih => simp [reduceOperand]
  | array elements ih => simp [reduceOperand]
  | map entries ih => simp [reduceOperand]

theorem AlignedOf.unique (o : Operand) : ∀ {s t t' : ExecContext vm} {av av' : AlignedValue},
    AlignedOf crypto program eval o s av t → AlignedOf crypto program eval o s av' t' →
      av = av' ∧ t = t' := by
  induction o using Operand.induct with
  | plain o ho =>
    intro s t t' av av' h h'
    cases h with
    | expr heval hencode =>
      cases h' with
      | expr heval' hencode' =>
        obtain ⟨rfl, rfl⟩ := Prod.mk.inj (Except.ok.inj (heval.symm.trans heval'))
        exact ⟨Except.ok.inj (hencode.symm.trans hencode'), rfl⟩
    | align hbytes hvalue =>
      cases h' with
      | align => exact ⟨rfl, rfl⟩
    | int h hn =>
      cases h' with
      | int h' hn' =>
        obtain rfl := Int.ofNat.inj (h.symm.trans h')
        exact ⟨rfl, rfl⟩
    | bool =>
      cases h' with
      | bool => exact ⟨rfl, rfl⟩
    | null hdefault hencode halign =>
      cases h' with
      | null hdefault' hencode' halign' =>
        obtain rfl := Except.ok.inj (hdefault.symm.trans hdefault')
        exact ⟨Except.ok.inj (hencode.symm.trans hencode'), rfl⟩
    | _ => exact ho.elim
  | valueToInt x ih =>
    intro s t t' av av' h h'
    cases h with
    | valueToInt h =>
      cases h' with
      | valueToInt h' => exact ih h h'
  | leafHash x ih =>
    intro s t t' av av' h h'
    cases h with
    | leafHash h =>
      cases h' with
      | leafHash h' =>
        obtain ⟨rfl, rfl⟩ := ih h h'
        exact ⟨rfl, rfl⟩
  | alignedConcat parts ih =>
    intro s t t' av av' h h'
    cases h with
    | alignedConcat h =>
      cases h' with
      | alignedConcat h' =>
        obtain ⟨rfl, rfl⟩ := h.unique h' (fun x hx _ _ _ _ _ => ih x hx)
        exact ⟨rfl, rfl⟩
  | cell x ih =>
    intro s t t' av av' h h'
    cases h with
    | cell h =>
      cases h' with
      | cell h' => exact ih h h'
  | adt x ty ih =>
    intro s t t' av av' h h'
    cases h with
    | adt hty h =>
      cases h' with
      | adt hty' h' => exact ih h h'
  | array elements ih =>
    intro s t t' av av' h
    cases h
  | map entries ih =>
    intro s t t' av av' h
    cases h

/-- An operand with an aligned value comes to one. -/
theorem AlignedOf.scalar {o : Operand} {s t : ExecContext vm} {av : AlignedValue}
    (h : AlignedOf crypto program eval o s av t) : FitsScalar o :=
  ⟨fun hred => absurd hred (h.reduces o), h.fits o⟩

end Values

section Pushes

variable {c : Codecs} (crypto : Crypto c) {vm : Vm} (program : Program)
  (eval : Expr → Exec vm Value)

theorem pushElements_eq (xs : List Operand) :
    pushElements crypto program eval xs = each (pushValue crypto program eval) xs := by
  induction xs with
  | nil => rfl
  | cons x xs ih =>
    rw [pushElements, ih]
    rfl

theorem fitsPushEach_iff (xs : List Operand) : FitsPushEach xs ↔ ∀ x ∈ xs, FitsPush x := by
  induction xs with
  | nil => exact iff_of_true trivial (fun x hx => by cases hx)
  | cons x xs ih => rw [FitsPushEach, ih, List.forall_mem_cons]

theorem fitsPushEntries_iff (entries : List (Operand × Operand)) :
    FitsPushEntries entries ↔ ∀ entry ∈ entries, FitsAligned entry.1 ∧ FitsPush entry.2 := by
  induction entries with
  | nil => exact iff_of_true trivial (fun entry hentry => by cases hentry)
  | cons entry entries ih => rw [FitsPushEntries, ih, List.forall_mem_cons, and_assoc]

variable {crypto program eval}

theorem stateOf_of_scalar {o : Operand} {s t : ExecContext vm} {v : vm.State}
    (h : Runs (pushScalar crypto program eval o) s v t) (hfit : FitsScalar o) :
    StateOf crypto program eval o s v t := by
  unfold pushScalar at h
  split at h
  · rename_i hred
    obtain rfl := hfit.1 (.inl hred)
    obtain ⟨rfl, rfl⟩ := runs_pure_iff.mp h
    exact .null
  · rename_i hred
    obtain rfl := hfit.1 (.inr hred)
    cases hred
  · obtain ⟨av, u, hav, h⟩ := runs_bind_iff.mp h
    obtain ⟨rfl, rfl⟩ := runs_pure_iff.mp h
    exact .cell (alignedOf_of_runs o hav hfit.2)

theorem stateOf_of_adt {x : Operand} {ty : NamedTy} {s t : ExecContext vm} {v : vm.State}
    (h : Runs (pushAdt crypto program eval x ty) s v t)
    (hfit : FitsPushState (.adt x ty)) :
    StateOf crypto program eval (.stateValue (.adt x ty)) s v t := by
  unfold pushAdt at h
  split at h
  · rename_i d name args
    rcases hfit with ⟨-, hx⟩ | hfit
    · cases hx
      rcases runs_ite.mp h with ⟨rfl, h⟩ | ⟨-, h⟩
      · obtain ⟨rfl, rfl⟩ := runs_pure_iff.mp h
        exact .emptyMap
      · exact (not_runs_stop h).elim
    · exact absurd trivial hfit.2.1
  · rename_i hne
    rcases hfit with ⟨hty, rfl⟩ | hfit
    · cases ty with
      | adt name args => exact absurd rfl (hne _ _ _ rfl)
      | _ => exact hty.elim
    · exact stateOf_of_scalar h hfit

/-- The entries of a map run in turn, the key before the value. -/
theorem pushEntries_runs (entries : List (Operand × Operand))
    (ih : ∀ entry ∈ entries, ∀ {s t : ExecContext vm} {v : vm.State},
      Runs (pushValue crypto program eval entry.2) s v t → FitsPush entry.2 →
        StateOf crypto program eval entry.2 s v t)
    (hfit : FitsPushEntries entries) {s t : ExecContext vm}
    {states : List (AlignedValue × vm.State)}
    (h : Runs (pushEntries crypto program eval entries) s states t) :
    InTurn (Both (AlignedOf crypto program eval) (StateOf crypto program eval)) entries s
      states t := by
  induction entries generalizing s states with
  | nil =>
    obtain ⟨rfl, rfl⟩ := runs_pure_iff.mp h
    exact .nil _
  | cons entry entries ihs =>
    obtain ⟨hhead, htail⟩ := List.forall_mem_cons.mp ih
    obtain ⟨hk, hv, hrest⟩ := hfit
    obtain ⟨key, u, hkey, h⟩ := runs_bind_iff.mp h
    obtain ⟨state, w, hstate, h⟩ := runs_bind_iff.mp h
    obtain ⟨rest, r, hstates, h⟩ := runs_bind_iff.mp h
    obtain ⟨rfl, rfl⟩ := runs_pure_iff.mp h
    exact .cons (.intro (alignedOf_of_runs _ hkey hk) (hhead hstate hv)) (ihs htail hrest hstates)

/-- A push that fits puts what it denotes on the stack. -/
theorem stateOf_of_runs (o : Operand) : ∀ {s t : ExecContext vm} {v : vm.State},
    Runs (pushValue crypto program eval o) s v t → FitsPush o →
      StateOf crypto program eval o s v t := by
  induction o using Operand.induct with
  | plain o ho =>
    intro s t v h hfit
    cases o with
    | stateValue value =>
      cases value with
      | null =>
        obtain ⟨rfl, rfl⟩ := runs_pure_iff.mp h
        exact .null
      | merkleTree depth entries =>
        rcases runs_ite.mp h with ⟨-, h⟩ | ⟨hempty, h⟩
        · exact (not_runs_stop h).elim
        · rcases runs_ite.mp h with ⟨hdepth, h⟩ | ⟨-, h⟩
          · obtain ⟨rfl, rfl⟩ := runs_pure_iff.mp h
            obtain rfl : entries = [] := by simpa using hempty
            exact .merkleTree hdepth
          · exact (not_runs_stop h).elim
      | _ => exact ho.elim
    | _ => exact stateOf_of_scalar h hfit
  | valueToInt x ih => exact fun h hfit => stateOf_of_scalar (o := .valueToInt x) h hfit
  | leafHash x ih => exact fun h hfit => stateOf_of_scalar (o := .leafHash x) h hfit
  | alignedConcat parts ih =>
    exact fun h hfit => stateOf_of_scalar (o := .alignedConcat parts) h hfit
  | cell x ih => exact fun h hfit => stateOf_of_scalar (o := .stateValue (.cell x)) h hfit
  | adt x ty ih => exact stateOf_of_adt
  | array elements ih =>
    intro s t v h hfit
    obtain ⟨states, u, hstates, h⟩ := runs_bind_iff.mp h
    obtain ⟨rfl, rfl⟩ := runs_pure_iff.mp h
    rw [pushElements_eq] at hstates
    have hfits := (fitsPushEach_iff elements).mp hfit
    exact .array (runs_each hstates (fun x hx s v t hrun => ih x hx hrun (hfits x hx)))
  | map entries ih =>
    intro s t v h hfit
    obtain ⟨states, u, hstates, h⟩ := runs_bind_iff.mp h
    obtain ⟨rfl, rfl⟩ := runs_pure_iff.mp h
    exact .map (pushEntries_runs entries (fun entry hentry => (ih entry hentry).2) hfit hstates)

/-- An operand that has a state value fits. -/
theorem StateOf.fits (o : Operand) : ∀ {s t : ExecContext vm} {v : vm.State},
    StateOf crypto program eval o s v t → FitsPush o := by
  induction o using Operand.induct with
  | plain o ho =>
    intro s t v h
    cases h with
    | null => trivial
    | merkleTree h => trivial
    | cell h =>
      have hscalar := h.scalar
      cases o with
      | stateValue value =>
        cases value with
        | null => trivial
        | merkleTree depth entries => trivial
        | _ => exact ho.elim
      | _ => exact hscalar
    | _ => exact ho.elim
  | valueToInt x ih =>
    intro s t v h
    cases h with
    | cell h => exact h.scalar
  | leafHash x ih =>
    intro s t v h
    cases h with
    | cell h => exact h.scalar
  | alignedConcat parts ih =>
    intro s t v h
    cases h with
    | cell h => exact h.scalar
  | cell x ih =>
    intro s t v h
    cases h with
    | cell h => exact h.scalar
  | adt x ty ih =>
    intro s t v h
    cases h with
    | cell h => exact .inr h.scalar
    | emptyMap => exact .inl ⟨trivial, rfl⟩
  | array elements ih =>
    intro s t v h
    cases h with
    | cell h => cases h
    | array h =>
      exact (fitsPushEach_iff elements).mpr (h.forall (fun x hx _ _ _ hx' => ih x hx hx'))
  | map entries ih =>
    intro s t v h
    cases h with
    | cell h => cases h
    | map h =>
      refine (fitsPushEntries_iff entries).mpr (h.forall (fun entry hentry s states t hboth => ?_))
      cases hboth with
      | intro hkey hvalue => exact ⟨hkey.fits _, (ih _ hentry).2 hvalue⟩

/-- A state value is not one of a cell and of something else. -/
theorem StateOf.unique (o : Operand) : ∀ {s t t' : ExecContext vm} {v v' : vm.State},
    StateOf crypto program eval o s v t → StateOf crypto program eval o s v' t' →
      v = v' ∧ t = t' := by
  have hcell : ∀ {o : Operand} {s t t' : ExecContext vm} {av av' : AlignedValue},
      AlignedOf crypto program eval o s av t → AlignedOf crypto program eval o s av' t' →
        vm.cell av = vm.cell av' ∧ t = t' := by
    intro o s t t' av av' h h'
    obtain ⟨rfl, rfl⟩ := h.unique o h'
    exact ⟨rfl, rfl⟩
  induction o using Operand.induct with
  | array elements ih =>
    intro s t t' v v' h h'
    cases h with
    | cell h => cases h
    | array h =>
      cases h' with
      | cell h' => cases h'
      | array h' =>
        obtain ⟨rfl, rfl⟩ := h.unique h' (fun x hx _ _ _ _ _ => ih x hx)
        exact ⟨rfl, rfl⟩
  | map entries ih =>
    intro s t t' v v' h h'
    cases h with
    | cell h => cases h
    | map h =>
      cases h' with
      | cell h' => cases h'
      | map h' =>
        obtain ⟨rfl, rfl⟩ := h.unique h' (fun entry hentry s states t states' t' hboth hboth' => by
          cases hboth with
          | intro hkey hvalue =>
            cases hboth' with
            | intro hkey' hvalue' =>
              obtain ⟨rfl, rfl⟩ := hkey.unique _ hkey'
              obtain ⟨rfl, rfl⟩ := (ih _ hentry).2 hvalue hvalue'
              exact ⟨rfl, rfl⟩)
        exact ⟨rfl, rfl⟩
  | adt x ty ih =>
    intro s t t' v v' h h'
    cases h with
    | cell h =>
      cases h' with
      | cell h' => exact hcell h h'
      | emptyMap =>
        cases h with
        | adt hty => exact (hty trivial).elim
    | emptyMap =>
      cases h' with
      | cell h' =>
        cases h' with
        | adt hty => exact (hty trivial).elim
      | emptyMap => exact ⟨rfl, rfl⟩
  | plain o ho =>
    intro s t t' v v' h h'
    cases h with
    | null =>
      cases h' with
      | null => exact ⟨rfl, rfl⟩
      | cell h' => cases h'
    | merkleTree =>
      cases h' with
      | merkleTree => exact ⟨rfl, rfl⟩
      | cell h' => cases h'
    | cell h =>
      cases h' with
      | cell h' => exact hcell h h'
      | null => cases h
      | merkleTree => cases h
      | _ => exact ho.elim
    | _ => exact ho.elim
  | valueToInt x ih =>
    intro s t t' v v' h h'
    cases h with
    | cell h =>
      cases h' with
      | cell h' => exact hcell h h'
  | leafHash x ih =>
    intro s t t' v v' h h'
    cases h with
    | cell h =>
      cases h' with
      | cell h' => exact hcell h h'
  | alignedConcat parts ih =>
    intro s t t' v v' h h'
    cases h with
    | cell h =>
      cases h' with
      | cell h' => exact hcell h h'
  | cell x ih =>
    intro s t t' v v' h h'
    cases h with
    | cell h =>
      cases h' with
      | cell h' => exact hcell h h'

end Pushes

section Instructions

variable {c : Codecs} {crypto : Crypto c} {vm : Vm} {program : Program}
  {eval : Expr → Exec vm Value}

theorem keyOf_of_runs {o : Operand} {s t : ExecContext vm} {key : Key}
    (h : Runs (pathKey crypto program eval o) s key t) (hfit : FitsAligned o) :
    KeyOf crypto program eval o s key t := by
  unfold pathKey at h
  split at h
  · obtain ⟨rfl, rfl⟩ := runs_pure_iff.mp h
    exact .stack
  · obtain ⟨av, u, hav, h⟩ := runs_bind_iff.mp h
    obtain ⟨rfl, rfl⟩ := runs_pure_iff.mp h
    exact .value (alignedOf_of_runs _ hav hfit)
  · obtain ⟨av, u, hav, h⟩ := runs_bind_iff.mp h
    obtain ⟨rfl, rfl⟩ := runs_pure_iff.mp h
    exact .value (alignedOf_of_runs _ hav hfit)
  · exact (not_runs_stop h).elim

theorem KeyOf.fits {o : Operand} {s t : ExecContext vm} {key : Key}
    (h : KeyOf crypto program eval o s key t) : FitsAligned o := by
  cases h with
  | stack => trivial
  | value h => exact h.fits o

theorem KeyOf.unique {o : Operand} {s t t' : ExecContext vm} {key key' : Key}
    (h : KeyOf crypto program eval o s key t) (h' : KeyOf crypto program eval o s key' t') :
    key = key' ∧ t = t' := by
  cases h with
  | stack =>
    cases h' with
    | stack => exact ⟨rfl, rfl⟩
    | value h' => cases h'
  | value h =>
    cases h' with
    | stack => cases h
    | value h' =>
      obtain ⟨rfl, rfl⟩ := h.unique o h'
      exact ⟨rfl, rfl⟩

theorem ImmediateOf.unique {o : Operand} {s t t' : ExecContext vm} {n n' : ℕ}
    (h : ImmediateOf eval o s n t) (h' : ImmediateOf eval o s n' t') : n = n' ∧ t = t' := by
  induction h with
  | int h hn =>
    cases h' with
    | int h' hn' => exact ⟨Int.ofNat.inj (h.symm.trans h'), rfl⟩
  | expr heval hn =>
    cases h' with
    | expr heval' hn' =>
      obtain ⟨hv, rfl⟩ := Prod.mk.inj (Except.ok.inj (heval.symm.trans heval'))
      exact ⟨Value.integer.inj hv, rfl⟩
  | valueToInt h ih =>
    cases h' with
    | valueToInt h' => exact ih h'
  | cell h ih =>
    cases h' with
    | cell h' => exact ih h'
  | adt hty h ih =>
    cases h' with
    | adt hty' h' => exact ih h'

/-- The wrappers around the number of an immediate make no difference to it. -/
theorem immediateOf_of_reduced (o : Operand) {s t : ExecContext vm} {n : ℕ} :
    ImmediateOf eval (reduceOperand o) s n t → FitsAligned o → ImmediateOf eval o s n t := by
  induction o using Operand.induct with
  | valueToInt x ih => exact fun h hfit => .valueToInt (ih h hfit)
  | cell x ih => exact fun h hfit => .cell (ih h hfit)
  | adt x ty ih => exact fun h hfit => .adt hfit.1 (ih h hfit.2)
  | plain o ho =>
    intro h hfit
    cases o with
    | stateValue value =>
      cases value with
      | null => cases h
      | merkleTree depth entries => cases h
      | _ => exact ho.elim
    | valueToInt x => exact ho.elim
    | _ => exact h
  | leafHash x ih => exact fun h _ => h
  | alignedConcat parts ih => exact fun h _ => h
  | array elements ih => exact fun h _ => h
  | map entries ih => exact fun h _ => h

theorem immediateOf_of_runs {op : OpName} {o : Operand} {s t : ExecContext vm} {n : ℕ}
    (h : Runs (resolveImmediate eval op o) s n t) (hfit : FitsAligned o) :
    ImmediateOf eval o s n t := by
  refine immediateOf_of_reduced o ?_ hfit
  unfold resolveImmediate at h
  split at h
  · rename_i z hred
    rw [hred]
    rcases runs_ite.mp h with ⟨hz, h⟩ | ⟨-, h⟩
    · obtain ⟨rfl, rfl⟩ := runs_pure_iff.mp h
      exact .int (Int.toNat_of_nonneg hz.1).symm (by omega)
    · exact (not_runs_stop h).elim
  · rename_i e hred
    rw [hred]
    obtain ⟨v, u, heval, h⟩ := runs_bind_iff.mp h
    obtain ⟨hn, rfl⟩ := runs_result_iff.mp h
    cases v with
    | integer m =>
      have hsome : (if m < 2 ^ 32 then some m else none) = some n := required_ok hn
      split at hsome
      · rename_i hm
        obtain rfl := Option.some.inj hsome
        exact .expr heval hm
      · cases hsome
    | _ => cases required_ok hn
  · exact (not_runs_stop h).elim

theorem ImmediateOf.fits (o : Operand) {s t : ExecContext vm} {n : ℕ} :
    ImmediateOf eval o s n t → FitsAligned o := by
  induction o using Operand.induct with
  | valueToInt x ih =>
    intro h
    cases h with
    | valueToInt h => exact ih h
  | cell x ih =>
    intro h
    cases h with
    | cell h => exact ih h
  | adt x ty ih =>
    intro h
    cases h with
    | adt hty h => exact ⟨hty, ih h⟩
  | plain o ho =>
    intro h
    cases h with
    | int => trivial
    | expr => trivial
    | _ => exact ho.elim
  | leafHash x ih => exact fun h => by cases h
  | alignedConcat parts ih => exact fun h => by cases h
  | array elements ih => exact fun h => by cases h
  | map entries ih => exact fun h => by cases h

/-- An operand that is there is the one that is used. -/
theorem runs_operand {α : Type} {i : Instruction} {name : String} {f : Operand → Exec vm α}
    {s t : ExecContext vm} {a : α} (h : Runs (result (operand i name) >>= f) s a t) :
    ∃ o ∈ i.arg name, Runs (f o) s a t := by
  obtain ⟨o, u, hresult, hrest⟩ := runs_bind_iff.mp h
  obtain ⟨ho, rfl⟩ := runs_result_iff.mp hresult
  exact ⟨o, required_ok ho, hrest⟩

/-- An operation from a value that does not touch the run. -/
theorem runs_result_map {α β : Type} {r : Result α} {f : α → β} {s t : ExecContext vm} {b : β}
    (h : Runs (do
      let a ← result r
      pure (f a) : Exec vm β) s b t) : ∃ a, r = .ok a ∧ b = f a ∧ t = s := by
  obtain ⟨a, u, hresult, hpure⟩ := runs_bind_iff.mp h
  obtain ⟨ha, rfl⟩ := runs_result_iff.mp hresult
  obtain ⟨rfl, rfl⟩ := runs_pure_iff.mp hpure
  exact ⟨a, ha, rfl, rfl⟩

/-- An instruction whose operands all fit is built as it denotes. -/
theorem operationOf_of_runs {i : Instruction} {s t : ExecContext vm} {op : Op vm.State}
    (h : Runs (buildOp crypto program eval i) s op t) (hfit : FitsInstruction crypto i) :
    OperationOf crypto program eval i s op t := by
  obtain ⟨name, args⟩ := i
  unfold buildOp at h
  cases name with
  | idx =>
    obtain ⟨hcached, hpush, hpath⟩ := hfit
    dsimp only [Instruction.op] at h
    split at h
    · rename_i path harg
      obtain ⟨keys, u, hkeys, h⟩ := runs_bind_iff.mp h
      obtain ⟨rfl, rfl⟩ := runs_pure_iff.mp h
      have hturn := runs_each hkeys (fun o ho s key t hrun =>
        keyOf_of_runs hrun (hpath path harg o ho))
      exact .idx rfl (flagOf_flag hcached) (flagOf_flag hpush) harg hturn
    · exact (not_runs_stop h).elim
  | push =>
    obtain ⟨hstorage, hvalue⟩ := hfit
    obtain ⟨o, ho, h⟩ := runs_operand h
    obtain ⟨v, u, hv, h⟩ := runs_bind_iff.mp h
    obtain ⟨rfl, rfl⟩ := runs_pure_iff.mp h
    exact .push rfl (flagOf_flag hstorage) ho (stateOf_of_runs o hv (hvalue o ho))
  | addi =>
    obtain ⟨o, ho, h⟩ := runs_operand h
    obtain ⟨n, u, hn, h⟩ := runs_bind_iff.mp h
    obtain ⟨rfl, rfl⟩ := runs_pure_iff.mp h
    exact .addi rfl ho (immediateOf_of_runs hn (hfit o ho))
  | subi =>
    obtain ⟨o, ho, h⟩ := runs_operand h
    obtain ⟨n, u, hn, h⟩ := runs_bind_iff.mp h
    obtain ⟨rfl, rfl⟩ := runs_pure_iff.mp h
    exact .subi rfl ho (immediateOf_of_runs hn (hfit o ho))
  | ins =>
    obtain ⟨n, hn, rfl, rfl⟩ := runs_result_map h
    exact .ins rfl (flagOf_flag hfit.1) (countArgOf_of_ok crypto hn hfit.2)
  | dup =>
    obtain ⟨rfl, rfl⟩ := runs_pure_iff.mp h
    exact .dup rfl (slotOf_u8ArgOrZero crypto hfit)
  | swap =>
    obtain ⟨rfl, rfl⟩ := runs_pure_iff.mp h
    exact .swap rfl (slotOf_u8ArgOrZero crypto hfit)
  | popeq =>
    obtain ⟨rfl, rfl⟩ := runs_pure_iff.mp h
    exact .popeq rfl (flagOf_flag hfit)
  | rem =>
    obtain ⟨rfl, rfl⟩ := runs_pure_iff.mp h
    exact .rem rfl (flagOf_flag hfit)
  | noop =>
    obtain ⟨n, hn, rfl, rfl⟩ := runs_result_map h
    exact .noop rfl (countArgOf_of_ok crypto hn hfit)
  | branch =>
    obtain ⟨skip, hskip, rfl, rfl⟩ := runs_result_map h
    exact .branch rfl (countArgOf_of_ok crypto hskip hfit)
  | jmp =>
    obtain ⟨skip, hskip, rfl, rfl⟩ := runs_result_map h
    exact .jmp rfl (countArgOf_of_ok crypto hskip hfit)
  | concat =>
    obtain ⟨n, hn, rfl, rfl⟩ := runs_result_map h
    exact .concat rfl (flagOf_flag hfit.1) (countArgOf_of_ok crypto hn hfit.2)
  | and => exact (not_runs_stop h).elim
  | new => exact (not_runs_stop h).elim
  | or => exact (not_runs_stop h).elim
  | sub => exact (not_runs_stop h).elim
  | unknown name => exact (not_runs_stop h).elim
  | _ =>
    obtain ⟨rfl, rfl⟩ := runs_pure_iff.mp h
    exact .plain rfl

/-- An instruction that denotes an operation has operands that all fit. -/
theorem OperationOf.fits {i : Instruction} {s t : ExecContext vm} {op : Op vm.State}
    (h : OperationOf crypto program eval i s op t) : FitsInstruction crypto i := by
  have hgiven : ∀ {name : String} {o : Operand} {P : Operand → Prop}, o ∈ i.arg name → P o →
      ∀ o' ∈ i.arg name, P o' := by
    intro name o P ho hP o' ho'
    obtain rfl := Option.mem_unique ho ho'
    exact hP
  unfold FitsInstruction
  cases h with
  | idx hop hcached hpush hpath hkeys =>
    rw [hop]
    refine ⟨hcached.fits, hpush.fits, fun path hpath' => ?_⟩
    rw [hpath] at hpath'
    obtain rfl := Operand.list.inj (Option.some.inj hpath')
    exact hkeys.forall (fun o _ _ _ _ hkey => hkey.fits)
  | push hop hstorage ho hvalue =>
    rw [hop]
    exact ⟨hstorage.fits, hgiven ho (hvalue.fits _)⟩
  | addi hop ho hn =>
    rw [hop]
    exact hgiven ho (hn.fits _)
  | subi hop ho hn =>
    rw [hop]
    exact hgiven ho (hn.fits _)
  | ins hop hcached hn =>
    rw [hop]
    exact ⟨hcached.fits, hn.fits⟩
  | dup hop hn =>
    rw [hop]
    exact hn.fits
  | swap hop hn =>
    rw [hop]
    exact hn.fits
  | popeq hop hcached =>
    rw [hop]
    exact hcached.fits
  | rem hop hcached =>
    rw [hop]
    exact hcached.fits
  | noop hop hn =>
    rw [hop]
    exact hn.fits
  | branch hop hskip =>
    rw [hop]
    exact hskip.fits
  | jmp hop hskip =>
    rw [hop]
    exact hskip.fits
  | concat hop hcached hn =>
    rw [hop]
    exact ⟨hcached.fits, hn.fits⟩
  | plain hop =>
    revert hop
    cases i.op <;> simp [plainOp]

/-- An instruction denotes one operation. -/
theorem OperationOf.unique {i : Instruction} {s t t' : ExecContext vm} {op op' : Op vm.State}
    (h : OperationOf crypto program eval i s op t)
    (h' : OperationOf crypto program eval i s op' t') :
    op = op' ∧ t = t' := by
  cases h with
  | idx hop hcached hpush hpath hkeys =>
    cases h' with
    | idx hop' hcached' hpush' hpath' hkeys' =>
      obtain rfl := hcached.unique hcached'
      obtain rfl := hpush.unique hpush'
      rw [hpath] at hpath'
      obtain rfl := Operand.list.inj (Option.some.inj hpath')
      obtain ⟨rfl, rfl⟩ := hkeys.unique hkeys' (fun o _ _ _ _ _ _ => KeyOf.unique)
      exact ⟨rfl, rfl⟩
    | plain hop' =>
      rw [hop] at hop'
      cases hop'
    | _ => cases hop.symm.trans ‹i.op = _›
  | push hop hstorage ho hvalue =>
    cases h' with
    | push hop' hstorage' ho' hvalue' =>
      obtain rfl := hstorage.unique hstorage'
      obtain rfl := Option.mem_unique ho ho'
      obtain ⟨rfl, rfl⟩ := hvalue.unique _ hvalue'
      exact ⟨rfl, rfl⟩
    | plain hop' =>
      rw [hop] at hop'
      cases hop'
    | _ => cases hop.symm.trans ‹i.op = _›
  | addi hop ho hn =>
    cases h' with
    | addi hop' ho' hn' =>
      obtain rfl := Option.mem_unique ho ho'
      obtain ⟨rfl, rfl⟩ := hn.unique hn'
      exact ⟨rfl, rfl⟩
    | plain hop' =>
      rw [hop] at hop'
      cases hop'
    | _ => cases hop.symm.trans ‹i.op = _›
  | subi hop ho hn =>
    cases h' with
    | subi hop' ho' hn' =>
      obtain rfl := Option.mem_unique ho ho'
      obtain ⟨rfl, rfl⟩ := hn.unique hn'
      exact ⟨rfl, rfl⟩
    | plain hop' =>
      rw [hop] at hop'
      cases hop'
    | _ => cases hop.symm.trans ‹i.op = _›
  | ins hop hcached hn =>
    cases h' with
    | ins hop' hcached' hn' =>
      obtain rfl := hcached.unique hcached'
      obtain rfl := hn.unique crypto hn'
      exact ⟨rfl, rfl⟩
    | plain hop' =>
      rw [hop] at hop'
      cases hop'
    | _ => cases hop.symm.trans ‹i.op = _›
  | concat hop hcached hn =>
    cases h' with
    | concat hop' hcached' hn' =>
      obtain rfl := hcached.unique hcached'
      obtain rfl := hn.unique crypto hn'
      exact ⟨rfl, rfl⟩
    | plain hop' =>
      rw [hop] at hop'
      cases hop'
    | _ => cases hop.symm.trans ‹i.op = _›
  | dup hop hn =>
    cases h' with
    | dup hop' hn' =>
      obtain rfl := hn.unique crypto hn'
      exact ⟨rfl, rfl⟩
    | plain hop' =>
      rw [hop] at hop'
      cases hop'
    | _ => cases hop.symm.trans ‹i.op = _›
  | swap hop hn =>
    cases h' with
    | swap hop' hn' =>
      obtain rfl := hn.unique crypto hn'
      exact ⟨rfl, rfl⟩
    | plain hop' =>
      rw [hop] at hop'
      cases hop'
    | _ => cases hop.symm.trans ‹i.op = _›
  | noop hop hn =>
    cases h' with
    | noop hop' hn' =>
      obtain rfl := hn.unique crypto hn'
      exact ⟨rfl, rfl⟩
    | plain hop' =>
      rw [hop] at hop'
      cases hop'
    | _ => cases hop.symm.trans ‹i.op = _›
  | branch hop hn =>
    cases h' with
    | branch hop' hn' =>
      obtain rfl := hn.unique crypto hn'
      exact ⟨rfl, rfl⟩
    | plain hop' =>
      rw [hop] at hop'
      cases hop'
    | _ => cases hop.symm.trans ‹i.op = _›
  | jmp hop hn =>
    cases h' with
    | jmp hop' hn' =>
      obtain rfl := hn.unique crypto hn'
      exact ⟨rfl, rfl⟩
    | plain hop' =>
      rw [hop] at hop'
      cases hop'
    | _ => cases hop.symm.trans ‹i.op = _›
  | popeq hop hcached =>
    cases h' with
    | popeq hop' hcached' =>
      obtain rfl := hcached.unique hcached'
      exact ⟨rfl, rfl⟩
    | plain hop' =>
      rw [hop] at hop'
      cases hop'
    | _ => cases hop.symm.trans ‹i.op = _›
  | rem hop hcached =>
    cases h' with
    | rem hop' hcached' =>
      obtain rfl := hcached.unique hcached'
      exact ⟨rfl, rfl⟩
    | plain hop' =>
      rw [hop] at hop'
      cases hop'
    | _ => cases hop.symm.trans ‹i.op = _›
  | plain hop =>
    cases h' with
    | plain hop' => exact ⟨Option.some.inj (hop.symm.trans hop'), rfl⟩
    | _ =>
      rw [‹i.op = _›] at hop
      cases hop

/-- An instruction that is not refused is built as it denotes exactly when each
operand that is given has a place where it stands. -/
theorem instruction_built_iff (crypto : Crypto c) (program : Program) (eval : Expr → Exec vm Value)
    (i : Instruction) (s t : ExecContext vm) (op : Op vm.State)
    (h : Runs (buildOp crypto program eval i) s op t) :
    OperationOf crypto program eval i s op t ↔ FitsInstruction crypto i :=
  ⟨OperationOf.fits, operationOf_of_runs h⟩

/-- A navigation by one constant. -/
theorem instruction_built_idx :
    OperationOf plainCrypto ⟨[], [], []⟩ (evalExpr plainCrypto ⟨[], [], []⟩ plainEnv 1)
      (.mk .idx [("cached", .bool true), ("pushPath", .bool false), ("path", .list [.align 7 1])])
      (initialContext () [] : ExecContext plainVm)
      (.idx true false [.value (.single [7] (.bytes 1))]) (initialContext () []) := by
  have hflag : ∀ {i : Instruction} {name : String} {b : Bool}, i.arg name = some (.bool b) →
      FitsFlag i name := fun h o ho => ⟨_, Option.mem_unique ho h⟩
  have hruns : Runs (buildOp plainCrypto ⟨[], [], []⟩ (evalExpr plainCrypto ⟨[], [], []⟩ plainEnv 1)
      (.mk .idx [("cached", .bool true), ("pushPath", .bool false), ("path", .list [.align 7 1])]))
      (initialContext () [] : ExecContext plainVm)
      (.idx true false [.value (.single [7] (.bytes 1))]) (initialContext () []) := rfl
  refine (instruction_built_iff plainCrypto ⟨[], [], []⟩ _ _ _ _ _ hruns).mpr
    ⟨hflag rfl, hflag rfl, fun path hpath o ho => ?_⟩
  obtain rfl := Operand.list.inj (Option.some.inj hpath)
  obtain rfl := List.mem_singleton.mp ho
  exact (by omega : 1 < 2 ^ 32)

/-- A slot that is out of range becomes the top of the stack, and a flag that is no
Boolean is off. -/
theorem operands_become_defaults :
    (Runs (buildOp plainCrypto ⟨[], [], []⟩ (evalExpr plainCrypto ⟨[], [], []⟩ plainEnv 1)
        (.mk .dup [("n", .int 300)])) (initialContext () [] : ExecContext plainVm) (.dup 0)
        (initialContext () []) ∧
      ¬ OperationOf plainCrypto ⟨[], [], []⟩ (evalExpr plainCrypto ⟨[], [], []⟩ plainEnv 1)
        (.mk .dup [("n", .int 300)]) (initialContext () [] : ExecContext plainVm) (.dup 0)
        (initialContext () [])) ∧
    (Runs (buildOp plainCrypto ⟨[], [], []⟩ (evalExpr plainCrypto ⟨[], [], []⟩ plainEnv 1)
        (.mk .popeq [("cached", .int 1)])) (initialContext () [] : ExecContext plainVm)
        (.popeq false) (initialContext () []) ∧
      ¬ OperationOf plainCrypto ⟨[], [], []⟩ (evalExpr plainCrypto ⟨[], [], []⟩ plainEnv 1)
        (.mk .popeq [("cached", .int 1)]) (initialContext () [] : ExecContext plainVm)
        (.popeq false) (initialContext () [])) := by
  refine ⟨⟨rfl, fun h => ?_⟩, ⟨rfl, fun h => ?_⟩⟩
  · obtain ⟨n, hn, hcount⟩ := h.fits (.int 300) rfl
    cases hcount with
    | int h => omega
  · obtain ⟨b, hb⟩ := h.fits (.int 1) rfl
    cases hb

end Instructions

end MidnightRs.Circuits
