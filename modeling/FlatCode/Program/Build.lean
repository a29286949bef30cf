import FlatCode.Program.Transform

/-! Building programs piece by piece. Calls get one empty label for each argument. -/

namespace FlatCode

namespace Expr

def int32 (n : Int32) : Expr := .literal [] (.int n.toInt64 .i32)

def int64 (n : Int64) : Expr := .literal [] (.int n .i64)

def uint64 (n : UInt64) : Expr := .literal [] (.uint n)

/-- A single-precision literal: the value is rounded to single precision. -/
def float32 (bits : UInt64) : Expr := .literal [] (.float (Float.ofBits bits).toFloat32.toFloat.toBits .f32)

def float64 (bits : UInt64) : Expr := .literal [] (.float bits .f64)

def bool (b : Bool) : Expr := .literal [] (.bool b)

def string (s : String) : Expr := .literal [] (.string s)

def ident (x : String) : Expr := .name [] x

def labelledCall (name : String) (args : List (Option String × Expr)) : Expr :=
  .call [] { name, args := args.map (·.2), labels := args.map (·.1) }

def templateCall (name : String) (templateArgs : List String) (args : List Expr) : Expr :=
  .call [] { name, args, labels := args.map fun _ => none, templateArgs }

def methodCall (receiver : Expr) (name : String) (args : List Expr) : Expr :=
  .call [] { name, args := receiver :: args, labels := (receiver :: args).map fun _ => none, isMethod := true }

def blockCall (name : String) (args body : List Expr) : Expr :=
  .call [] { name, args, labels := args.map fun _ => none, body := some body }

def binding (name : String) (transforms : List String) (init : Expr) : Expr :=
  .call (transforms.map Transform.parse) { name, args := [init], labels := [none], isBinding := true }

def parameter (name : String) (transforms : List String) : Expr :=
  .call (transforms.map Transform.parse) { name, isBinding := true }

def ret (e : Expr) : Expr := plainCall "return" [e]

def retVoid : Expr := plainCall "return" []

def ifElse (cond : Expr) (yes no : List Expr) : Expr :=
  plainCall "if" [cond, blockCall "then" [] yes, blockCall "else" [] no]

def repeatLoop (count : Expr) (body : List Expr) : Expr := blockCall "repeat" [count] body

def whileLoop (cond : Expr) (body : List Expr) : Expr := blockCall "while" [cond] body

def forLoop (init cond step : Expr) (body : List Expr) : Expr := blockCall "for" [init, cond, step] body

def block (body : List Expr) : Expr := blockCall "block" [] body

def assign (target value : Expr) : Expr := plainCall "assign" [target, value]

/-- The expression with one more transform at the end. -/
def addTransform (t : Transform) : Expr → Expr
  | .literal ts v => .literal (ts ++ [t]) v
  | .name ts x => .name (ts ++ [t]) x
  | .call ts c => .call (ts ++ [t]) c

end Expr

namespace Definition

def addTransform (d : Definition) (t : Transform) : Definition := { d with transforms := d.transforms ++ [t] }

def returning (d : Definition) (type : String) : Definition :=
  d.addTransform (Transform.parse ("return<" ++ type ++ ">"))

end Definition

def Execution.positional (path : String) (arguments : List Expr) : Execution :=
  { path, arguments, labels := arguments.map fun _ => none }

end FlatCode
