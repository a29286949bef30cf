/-! Programs: definitions under slash-separated paths, executions of them, and the expressions they are made of.
    Statements, bindings and blocks are all calls; a transform annotates a definition, an execution or an
    expression. -/

-- Powers and sums are the core library's, whatever algebra is imported beside a program.
attribute [instance (1100), default_instance (10001)] instPowNat
attribute [instance (1100)] Zero.ofOfNat0

namespace FlatCode

/-- A named annotation with template arguments (`map<i32, i64>`) or plain arguments (`effects(io_out)`). -/
structure Transform where
  name : String
  templateArgs : List String := []
  arguments : List String := []
deriving DecidableEq, Repr, Inhabited

inductive IntWidth where
  | i32
  | i64
deriving DecidableEq, Repr

inductive FloatWidth where
  | f32
  | f64
deriving DecidableEq, Repr

/-- Literals. A floating-point one holds the bits of its value in double precision, whatever its width. -/
inductive Literal where
  | int (value : Int64) (width : IntWidth)
  | uint (value : UInt64)
  | float (bits : UInt64) (width : FloatWidth)
  | bool (value : Bool)
  | string (text : String)
deriving DecidableEq, Repr

/-- A call over expressions of type `ε`: a builtin, a definition, a method of its first argument, or, with
    `isBinding`, a declaration whose first argument is its initial value. -/
structure CallOf (ε : Type) where
  name : String
  args : List ε := []
  labels : List (Option String) := []
  body : Option (List ε) := none
  templateArgs : List String := []
  isBinding : Bool := false
  isMethod : Bool := false
deriving DecidableEq

/-- Expressions, each with its transforms. -/
inductive Expr where
  | literal (transforms : List Transform) (value : Literal)
  | name (transforms : List Transform) (name : String)
  | call (transforms : List Transform) (call : CallOf Expr)

abbrev Call := CallOf Expr

structure Definition where
  path : String
  transforms : List Transform := []
  templateArgs : List String := []
  parameters : List Expr := []
  statements : List Expr := []
  result : Option Expr := none

structure Execution where
  path : String
  transforms : List Transform := []
  arguments : List Expr := []
  labels : List (Option String) := []
  body : List Expr := []

structure Program where
  imports : List String := []
  definitions : List Definition := []
  executions : List Execution := []

mutual

def Expr.decEq : (a b : Expr) → Decidable (a = b)
  | .literal t v, .literal t' v' =>
    if h : t = t' ∧ v = v' then isTrue (by simp [h]) else isFalse (by simp_all)
  | .name t v, .name t' v' =>
    if h : t = t' ∧ v = v' then isTrue (by simp [h]) else isFalse (by simp_all)
  | .call t ⟨n, args, ls, body, ts, b, m⟩, .call t' ⟨n', args', ls', body', ts', b', m'⟩ =>
    match Expr.decEqList args args', Expr.decEqBody body body' with
    | isTrue h, isTrue h' =>
      if h'' : t = t' ∧ n = n' ∧ ls = ls' ∧ ts = ts' ∧ b = b' ∧ m = m' then isTrue (by simp [h, h', h''])
      else isFalse (by simp_all)
    | isFalse _, _ => isFalse (by simp_all)
    | _, isFalse _ => isFalse (by simp_all)
  | .literal .., .name .. => isFalse nofun
  | .literal .., .call .. => isFalse nofun
  | .name .., .literal .. => isFalse nofun
  | .name .., .call .. => isFalse nofun
  | .call .., .literal .. => isFalse nofun
  | .call .., .name .. => isFalse nofun

def Expr.decEqList : (a b : List Expr) → Decidable (a = b)
  | [], [] => isTrue rfl
  | [], _ :: _ => isFalse nofun
  | _ :: _, [] => isFalse nofun
  | a :: l, b :: l' =>
    match a.decEq b, Expr.decEqList l l' with
    | isTrue h, isTrue h' => isTrue (by rw [h, h'])
    | isFalse _, _ => isFalse (by simp_all)
    | _, isFalse _ => isFalse (by simp_all)

def Expr.decEqBody : (a b : Option (List Expr)) → Decidable (a = b)
  | none, none => isTrue rfl
  | none, some _ => isFalse nofun
  | some _, none => isFalse nofun
  | some a, some b =>
    match Expr.decEqList a b with
    | isTrue h => isTrue (by rw [h])
    | isFalse _ => isFalse (by simp_all)

end

instance : DecidableEq Expr := Expr.decEq
deriving instance DecidableEq for Definition, Execution, Program

namespace CallOf
variable {ε : Type} (c : CallOf ε)

def labelAt (i : Nat) : Option String := (c.labels[i]?).join

def hasLabels : Bool := c.labels.any Option.isSome

/-- A call that is neither a binding nor a method call. -/
def isPlain : Bool := !c.isBinding && !c.isMethod

end CallOf

namespace Expr

def transforms : Expr → List Transform
  | .literal ts _ => ts
  | .name ts _ => ts
  | .call ts _ => ts

def call? : Expr → Option Call
  | .call _ c => some c
  | _ => none

def body? (e : Expr) : Option (List Expr) := e.call?.bind (·.body)

def isBinding : Expr → Bool
  | .call _ c => c.isBinding
  | _ => false

def isCallTo (e : Expr) (name : String) : Bool :=
  match e with
  | .call _ c => c.isPlain && c.name == name
  | _ => false

def hasTransform (e : Expr) (name : String) : Bool := e.transforms.any (·.name == name)

def boundName? : Expr → Option String
  | .call _ c => if c.isBinding then some c.name else none
  | _ => none

def initial? : Expr → Option Expr
  | .call _ c => if c.isBinding then c.args.head? else none
  | _ => none

mutual

def size : Expr → Nat
  | .literal .. => 1
  | .name .. => 1
  | .call _ ⟨_, args, _, none, _, _, _⟩ => sizeList args + 1
  | .call _ ⟨_, args, _, some body, _, _, _⟩ => sizeList args + sizeList body + 1

def sizeList : List Expr → Nat
  | [] => 0
  | e :: l => e.size + sizeList l

end
end Expr

/-- The blocks attached to the arguments of a call and to the call itself, in this order. -/
def CallOf.blocks (c : CallOf Expr) : List (List Expr) := c.args.filterMap Expr.body? ++ c.body.toList

def Expr.plainCall (name : String) (args : List Expr) : Expr :=
  .call [] { name, args, labels := args.map fun _ => none }

namespace Definition
variable (d : Definition)

def hasTransform (name : String) : Bool := d.transforms.any (·.name == name)

/-- A struct lists fields and is never run. -/
def isStruct : Bool := d.hasTransform "struct"

/-- The statements, and a final `return` of the result if there is one. -/
def body : List Expr :=
  match d.result with
  | none => d.statements
  | some e => d.statements ++ [Expr.plainCall "return" [e]]

def size : Nat :=
  Expr.sizeList d.parameters + Expr.sizeList d.statements + (d.result.map Expr.size).getD 0 + 1

end Definition

def Execution.size (x : Execution) : Nat := Expr.sizeList x.arguments + Expr.sizeList x.body + 1

def Program.size (p : Program) : Nat :=
  (p.definitions.map Definition.size).sum + (p.executions.map Execution.size).sum + 1

def Program.definition? (p : Program) (path : String) : Option Definition := p.definitions.find? (·.path == path)

end FlatCode
