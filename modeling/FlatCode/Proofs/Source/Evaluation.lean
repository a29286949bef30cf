import FlatCode.Machine.Run
import FlatCode.Proofs.Source.Syntax

/-! The meaning of the fragment: a direct evaluation of terms and statements. Values are integers in the range of their
    kind, operands are evaluated from left to right, and the names of a block end with it. -/

namespace FlatCode.Source

/-- The value of a kind that an integer wraps around to; anything but zero is true. -/
def Scalar.wrap : Scalar → Int → Int
  | .i32, n => n.bmod (2 ^ 32)
  | .i64, n => n.bmod (2 ^ 64)
  | .u64, n => n % 2 ^ 64
  | .bool, n => if n = 0 then 0 else 1

def truth (b : Bool) : Int := if b then 1 else 0

/-- The result of an operator on numbers of a kind. A quotient is rounded toward zero; nothing is divided by zero. -/
def result? (op : ArithmeticOp) (k : Scalar) (a b : Int) : Option Int :=
  match op with
  | .plus => some (k.wrap (a + b))
  | .minus => some (k.wrap (a - b))
  | .multiply => some (k.wrap (a * b))
  | .divide => if b = 0 then none else some (k.wrap (a.tdiv b))

def holds (op : ComparisonOp) (a b : Int) : Bool :=
  match op with
  | .equal => a == b
  | .notEqual => a != b
  | .less => a < b
  | .lessEqual => a ≤ b
  | .greater => a > b
  | .greaterEqual => a ≥ b

def between (n low high : Int) : Int := if n < low then low else if high < n then high else n

def select? (f : Selection) (k : Scalar) (args : List Int) : Option Int :=
  match f, args with
  | .abs, [n] => some (k.wrap (if n < 0 then -n else n))
  | .sign, [n] => some n.sign
  | .saturate, [n] => some (between n 0 1)
  | .min, [a, b] => some (min a b)
  | .max, [a, b] => some (max a b)
  | .clamp, [n, low, high] => some (between n low high)
  | _, _ => none

structure Cell where
  kind : Scalar
  value : Int
deriving DecidableEq, Repr

abbrev Env := List (String × Cell)

namespace Env

def kinds (ρ : Env) : Kinds := ρ.map fun b => (b.1, b.2.kind)

def set (x : String) (n : Int) : Env → Env
  | [] => []
  | (y, c) :: ρ => if x == y then (y, { c with value := n }) :: ρ else (y, c) :: set x n ρ

def leave (n : Nat) (ρ : Env) : Env := ρ.drop (ρ.length - n)

end Env

/-- How a run ends: with a value, without one, by a division by zero, or by a negative count of a `loop`. -/
inductive Ending where
  | returned (n : Int)
  | missingReturn
  | divisionByZero
  | negativeCount
deriving DecidableEq, Repr

/-- A part of a run: it is done, it ends the run, it runs out of fuel, or it has no meaning. -/
inductive Run (α : Type) where
  | done (a : α)
  | stop (e : Ending)
  | timeout
  | stuck

namespace Run
variable {α β : Type}

def andThen (r : Run α) (k : α → Run β) : Run β :=
  match r with
  | .done a => k a
  | .stop e => .stop e
  | .timeout => .timeout
  | .stuck => .stuck

instance : Monad Run where
  pure := .done
  bind := andThen

/-- Makes passes as long as the test holds; with the last of the fuel it runs out. -/
def iterate (test : α → Run (Bool × β)) (pass : β → Run α) : (fuel : Nat) → α → Run β
  | 0, _ => .timeout
  | fuel + 1, a => do
    let (b, rest) ← test a
    if b then iterate test pass fuel (← pass rest) else done rest

end Run

def inBlock (body : Env → Run Env) (ρ : Env) : Run Env := do
  let ρ' ← body ρ
  return ρ'.leave ρ.length

def countDown (fuel : Nat) (body : Env → Run Env) (n : Int) (ρ : Env) : Run Env := do
  let (_, ρ) ← Run.iterate (fun (n, ρ) => return (decide (0 < n), n, ρ))
    (fun (n, ρ) => return (n - 1, ← inBlock body ρ)) fuel (n, ρ)
  return ρ

def declare (bound : Option String) (n : Int) (ρ : Env) : Env :=
  match bound with
  | some x => (x, { kind := .bool, value := n }) :: ρ
  | none => ρ

section
variable (fuel : Nat)

mutual

/-- Evaluates a term; each loop in it makes less passes than there is fuel. -/
def Term.eval : Term → Env → Run (Int × Env)
  | .lit _ n, ρ => .done (n, ρ)
  | .name x, ρ =>
    match ρ.lookup x with
    | some c => .done (c.value, ρ)
    | none => .stuck
  | .arithmetic op l r, ρ =>
    match Scalar.join (l.kind? ρ.kinds) (r.kind? ρ.kinds) with
    | none => .stuck
    | some k => do
      let (a, ρ) ← l.eval ρ
      let (b, ρ) ← r.eval ρ
      match result? op k a b with
      | some n => return (n, ρ)
      | none => .stop .divisionByZero
  | .negate e, ρ =>
    match e.kind? ρ.kinds with
    | none => .stuck
    | some k => do
      let (n, ρ) ← e.eval ρ
      return (k.wrap (-n), ρ)
  | .comparison op l r, ρ => do
    let (a, ρ) ← l.eval ρ
    let (b, ρ) ← r.eval ρ
    return (truth (holds op a b), ρ)
  | .conjunction l r, ρ => do
    let (a, ρ) ← l.eval ρ
    if a = 0 then return (0, ρ) else r.eval ρ
  | .disjunction l r, ρ => do
    let (a, ρ) ← l.eval ρ
    if a = 0 then r.eval ρ else return (1, ρ)
  | .not e, ρ => do
    let (n, ρ) ← e.eval ρ
    return (truth (n == 0), ρ)
  | .selection f args, ρ =>
    match Scalar.joinAll (Term.kinds ρ.kinds args) with
    | none => .stuck
    | some k => do
      let (ns, ρ) ← Term.evalAll args ρ
      match select? f k ns with
      | some n => return (n, ρ)
      | none => .stuck
  | .convert k e, ρ => do
    let (n, ρ) ← e.eval ρ
    return (k.wrap n, ρ)
  | .assign x e, ρ => do
    let (n, ρ) ← e.eval ρ
    return (n, ρ.set x n)
  | .step op x, ρ =>
    match ρ.lookup x with
    | none => .stuck
    | some c =>
      match result? op c.kind c.value 1 with
      | some n => .done (n, ρ.set x n)
      | none => .stop .divisionByZero
  | .ifElse c yes no, ρ => do
    let (n, ρ) ← c.eval ρ
    if n = 0 then no.eval ρ else yes.eval ρ
  | .block b, ρ => b.eval ρ

def Term.evalAll : List Term → Env → Run (List Int × Env)
  | [], ρ => .done ([], ρ)
  | e :: rest, ρ => do
    let (n, ρ) ← e.eval ρ
    let (ns, ρ) ← Term.evalAll rest ρ
    return (n :: ns, ρ)

def Body.eval : Body → Env → Run (Int × Env)
  | .value before last, ρ => do
    let ρ' ← Stmt.runAll before ρ
    let (n, ρ') ← last.eval ρ'
    return (n, ρ'.leave ρ.length)
  | .ret before last, ρ => do
    let ρ' ← Stmt.runAll before ρ
    let (n, _) ← last.eval ρ'
    .stop (.returned n)

def Stmt.run : Stmt → Env → Run Env
  | .drop e, ρ => do
    let (_, ρ) ← e.eval ρ
    return ρ
  | .bind x e, ρ =>
    match e.kind? ρ.kinds with
    | none => .stuck
    | some kind => do
      let (value, ρ) ← e.eval ρ
      return (x, { kind, value }) :: ρ
  | .ret e, ρ => do
    let (n, _) ← e.eval ρ
    .stop (.returned n)
  | .ifElse c yes no, ρ => do
    let (n, ρ) ← c.eval ρ
    if n = 0 then inBlock (Stmt.runAll no) ρ else inBlock (Stmt.runAll yes) ρ
  | .block body, ρ => inBlock (Stmt.runAll body) ρ
  | .whileLoop c body, ρ =>
    Run.iterate (fun ρ => do let (n, ρ) ← c.eval ρ; return (n != 0, ρ)) (inBlock (Stmt.runAll body)) fuel ρ
  | .repeatLoop count body, ρ => do
    let (n, ρ) ← count.eval ρ
    countDown fuel (Stmt.runAll body) n ρ
  | .countedLoop count body, ρ => do
    let (n, ρ) ← count.eval ρ
    if n < 0 then .stop .negativeCount else countDown fuel (Stmt.runAll body) n ρ
  | .forLoop init bound c step body, ρ => do
    let ρ' ← init.run ρ
    let ρ'' ← Run.iterate (fun ρ => do let (n, ρ) ← c.eval ρ; return (n != 0, declare bound n ρ))
      (fun ρ => do
        let ρ ← inBlock (Stmt.runAll body) ρ
        let ρ ← inBlock step.run ρ
        return ρ.leave ρ'.length) fuel ρ'
    return ρ''.leave ρ.length

def Stmt.runAll : List Stmt → Env → Run Env
  | [], ρ => .done ρ
  | s :: rest, ρ => do Stmt.runAll rest (← s.run ρ)

end

theorem Term.eval_lit (k : Scalar) (n : Int) (ρ : Env) : (Term.lit k n).eval fuel ρ = .done (n, ρ) := by
  rw [Term.eval]

/-- Runs the body of a definition, in which each loop makes at most `fuel` passes; one that comes to its end returns
    nothing. -/
def evaluate (body : List Stmt) : Run Ending :=
  match Stmt.runAll (fuel + 1) body [] with
  | .done _ => .done .missingReturn
  | .stop e => .done e
  | .timeout => .timeout
  | .stuck => .stuck

end

def word (n : Int) : Word := UInt64.ofInt n

def Ending.answer : Ending → Except Machine.Fault Machine.Result
  | .returned n => .ok { value := some (word n), output := {} }
  | .missingReturn => .error .missingReturn
  | .divisionByZero => .error .divisionByZero
  | .negativeCount => .ok { value := some 3, output := { stderr := "loop count must be non-negative\n" } }

end FlatCode.Source
