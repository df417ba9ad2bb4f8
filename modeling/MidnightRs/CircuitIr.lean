import MidnightRs.Casts

/-!
The circuits of an artifact and the expressions of their bodies, in the words of
the analyzed IR. A name that the source prints as `%round.1` has the source-level
name `round`.
-/
namespace MidnightRs.Circuits

open MidnightRs.Compact

abbrev Ident := String

/-- The source-level name: without the percent sign and the numeric suffix. -/
def Ident.name (id : Ident) : String :=
  let s := match id.toList with
    | '%' :: cs => cs
    | cs => cs
  let suffix := s.reverse.takeWhile (fun ch => ch != '.')
  match s.reverse.drop suffix.length with
  | [] => String.ofList s
  | _ :: before => if suffix.all Char.isDigit then String.ofList before.reverse else String.ofList s

mutual

/-- A type with what its values do without: the arguments of a ledger type, and
the circuits of a contract type with their results. -/
inductive NamedTy where
  | value (ty : Ty)
  | adt (name : String) (args : List AdtArg)
  | contract (name : String) (circuits : List (String × Ty))
  | aliasOf (nominal : Bool) (name : String) (ty : NamedTy)

inductive AdtArg where
  | nat (n : ℕ)
  | type (ty : NamedTy)

end

namespace NamedTy

def ty : NamedTy → Ty
  | value ty => ty
  | adt name _ => .adt name
  | contract name _ => .contract name
  | aliasOf nominal name ty => .aliasOf nominal name ty.ty

def resolved : NamedTy → NamedTy
  | aliasOf _ _ ty => ty.resolved
  | value ty => .value ty.resolved
  | ty => ty

def circuits : NamedTy → List (String × Ty)
  | contract _ circuits => circuits
  | _ => []

end NamedTy

inductive Literal where
  | int (n : ℤ)
  | bool (b : Bool)
  | bytes (bytes : Bytes)
deriving DecidableEq, Repr

structure Argument where
  name : Ident
  ty : Ty

inductive ArithOp where
  | add
  | sub
  | mul
deriving DecidableEq, Repr

/-- The Rust name of the operator, which the errors of a foreign field hold. -/
def ArithOp.name : ArithOp → String
  | add => "Add"
  | sub => "Sub"
  | mul => "Mul"

inductive CompareOp where
  | lt
  | le
  | gt
  | ge
deriving DecidableEq, Repr

/-- The casts that carry both types. -/
inductive CastKind where
  | fromEnum
  | toEnum
  | safe
deriving DecidableEq, Repr

inductive OpClass where
  | plain (name : String)
  | coinCheck (name : String) (coin recipient : ℕ)
deriving DecidableEq, Repr

inductive OpName where
  | add | addi | and | branch | ckpt | concat | dup | eq | idx | ins | jmp | log | lt | member
  | neg | new | noop | or | pop | popeq | push | rem | root | size | sub | subi | swap | type
  | unknown (name : String)
deriving DecidableEq, Repr

def OpName.asStr : OpName → String
  | add => "add" | addi => "addi" | and => "and" | branch => "branch" | ckpt => "ckpt"
  | concat => "concat" | dup => "dup" | eq => "eq" | idx => "idx" | ins => "ins" | jmp => "jmp"
  | log => "log" | lt => "lt" | member => "member" | neg => "neg" | new => "new" | noop => "noop"
  | or => "or" | pop => "pop" | popeq => "popeq" | push => "push" | rem => "rem" | root => "root"
  | size => "size" | sub => "sub" | subi => "subi" | swap => "swap" | type => "type"
  | unknown name => name

mutual

/-- Addition, subtraction and multiplication are one form with an operator, as are
the four comparisons, equality and its negation, and tuple and vector literals. -/
inductive Expr where
  | quote (literal : Literal)
  | varRef (id : Ident)
  | default (ty : NamedTy)
  | ite (cond thn els : Expr)
  | eltRef (expr : Expr) (elt : String) (index : ℕ)
  | enumRef (ty : Ty) (elt : String)
  | tuple (vector : Bool) (args : List TupleArg)
  | tupleRef (expr : Expr) (index : ℕ)
  | tupleSlice (ty : Ty) (expr : Expr) (index len : ℕ)
  | vectorRef (ty : Ty) (expr index : Expr)
  | vectorSlice (ty : Ty) (expr index : Expr) (len : ℕ)
  | bytesRef (ty : Ty) (expr index : Expr)
  | bytesSlice (ty : Ty) (expr index : Expr) (len : ℕ)
  | arith (op : ArithOp) (ty : Ty) (left right : Expr)
  | compare (op : CompareOp) (bits : ℕ) (left right : Expr)
  | equal (negated : Bool) (ty : Ty) (left right : Expr)
  | map (len : ℕ) (fn : Fun) (args : List MapArg)
  | fold (len : ℕ) (fn : Fun) (init : Expr) (initTy : Ty) (args : List MapArg)
  | call (name : Ident) (args : List Expr)
  | new (ty : Ty) (elements : List Expr)
  | seq (items : List Expr)
  | letStar (bindings : List (Argument × Expr)) (body : Expr)
  | assert (expr : Expr) (message : String)
  | fieldToBytes (len : ℕ) (fieldType : FieldType) (expr : Expr)
  | castFromBytes (ty : Ty) (len : ℕ) (expr : Expr)
  | vectorToBytes (len : ℕ) (expr : Expr)
  | bytesToVector (len : ℕ) (expr : Expr)
  | castBetween (kind : CastKind) (ty source : Ty) (expr : Expr)
  | castToField (fieldType : FieldType) (source : Ty) (expr : Expr)
  | castFromField (maxval : ℕ) (fieldType : FieldType) (expr : Expr)
  | downcastUnsigned (fromMaxval toMaxval : ℕ) (expr : Expr)
  | contractCall (circuit : String) (receiver : Expr) (contractType : NamedTy) (args : List Expr)
  | emit (eventVersion eventTag len : ℕ) (payload : Expr) (instructions : List Instruction)
  | publicLedger (field : Ident) (opClass : OpClass) (path : List PathElement) (op : String)
      (resultType : Ty) (instructions : List Instruction) (args : List Expr)
  | ret (expr : Expr)

inductive TupleArg where
  | single (expr : Expr)
  | spread (len : ℕ) (expr : Expr)

inductive MapArg where
  | mk (expr : Expr) (ty elementTy : Ty)

inductive Fun where
  | ref (id : Ident)
  | circuit (arguments : List Argument) (resultType : Ty) (body : Expr)

inductive PathElement where
  | index (n : ℕ)
  | computed (ty : Ty) (expr : Expr)

inductive Instruction where
  | mk (op : OpName) (args : List (String × Operand))

inductive Operand where
  | int (n : ℤ)
  | bool (b : Bool)
  | str (s : String)
  | align (value bytes : ℕ)
  | stack
  | void
  | valueToInt (x : Operand)
  | null (ty : Ty)
  | maxSizeof (ty : Ty)
  | add (x y : Operand)
  | leafHash (x : Operand)
  | coinCommit (coin recipient : Operand)
  | alignedConcat (parts : List Operand)
  | stateValue (value : StateValue)
  | expr (e : Expr)
  | list (items : List Operand)

inductive StateValue where
  | null
  | cell (x : Operand)
  | adt (x : Operand) (ty : NamedTy)
  | array (elements : List Operand)
  | map (entries : List (Operand × Operand))
  | merkleTree (depth : ℕ) (entries : List (Operand × Operand))

end

namespace MapArg

def expr : MapArg → Expr
  | mk expr _ _ => expr

/-- The type of the argument, which lays out its elements. -/
def ty : MapArg → Ty
  | mk _ ty _ => ty

end MapArg

namespace Instruction

def op : Instruction → OpName
  | mk op _ => op

def args : Instruction → List (String × Operand)
  | mk _ args => args

def arg (i : Instruction) (name : String) : Option Operand := i.args.lookup name

end Instruction

structure Circuit where
  name : Ident
  exported : Bool
  pure : Bool
  proof : Bool
  arguments : List Argument
  resultType : Ty
  body : Expr

structure Native where
  name : Ident
  entry : String
  kind : String
  arguments : List Argument
  resultType : Ty

structure Witness where
  name : Ident
  arguments : List Argument
  resultType : Ty

structure Constructor where
  arguments : List Argument
  body : Expr

/-- The elements of an artifact that its circuits run with. -/
structure AnalyzedIr where
  exports : List (String × Ident)
  circuits : List Circuit
  natives : List Native
  witnesses : List Witness
  constructor : Option Constructor

end MidnightRs.Circuits
