import FlatCode.Binding

/-! The imperative fragment of the language over integers and bools: its terms and statements, their kinds, and which
    expressions of a program they stand for. -/

namespace FlatCode.Source

inductive Scalar where
  | i32
  | i64
  | u64
  | bool
deriving DecidableEq, Repr

namespace Scalar

def kind : Scalar → Kind
  | .i32 => .int32
  | .i64 => .int64
  | .u64 => .uint64
  | .bool => .bool

def width : Scalar → Width
  | .i32 | .bool => .i32
  | .i64 => .i64
  | .u64 => .u64

/-- The kind of an operation on two numbers: the wider of both. Signed and unsigned ones do not mix, and a bool is no
    number. -/
def join? : Scalar → Scalar → Option Scalar
  | .i32, .i32 => some .i32
  | .i32, .i64 | .i64, .i32 | .i64, .i64 => some .i64
  | .u64, .u64 => some .u64
  | _, _ => none

def isSigned : Scalar → Bool
  | .i32 | .i64 => true
  | .u64 | .bool => false

/-- The kind of an operation on two terms, where `none` is the kind of a term that never has a value. -/
def join (a b : Option Scalar) : Option Scalar := a.bind fun a => b.bind fun b => a.join? b

def joinAll : List (Option Scalar) → Option Scalar
  | [] => none
  | a :: rest => rest.foldl join (join a a)

/-- The kind of an `if`, one branch of which may have no value. -/
def merge : Option Scalar → Option Scalar → Option Scalar
  | none, b => b
  | a, none => a
  | some a, some b => if a = b then some a else a.join? b

end Scalar

abbrev Kinds := List (String × Scalar)

/-- The functions that select one of their arguments, or one of a few numbers. -/
inductive Selection where
  | abs
  | sign
  | saturate
  | min
  | max
  | clamp
deriving DecidableEq, Repr

def Selection.function : Selection → MathFunction
  | .abs => .abs
  | .sign => .sign
  | .saturate => .saturate
  | .min => .min
  | .max => .max
  | .clamp => .clamp

mutual

inductive Term where
  | lit (k : Scalar) (n : Int)
  | name (x : String)
  | arithmetic (op : ArithmeticOp) (l r : Term)
  | negate (e : Term)
  | comparison (op : ComparisonOp) (l r : Term)
  | conjunction (l r : Term)
  | disjunction (l r : Term)
  | not (e : Term)
  | selection (f : Selection) (args : List Term)
  | convert (k : Scalar) (e : Term)
  | assign (x : String) (e : Term)
  /-- Changes a binding by one. -/
  | step (op : ArithmeticOp) (x : String)
  | ifElse (c : Term) (yes no : Body)
  | block (b : Body)

inductive Body where
  | value (before : List Stmt) (last : Term)
  | ret (before : List Stmt) (last : Term)

inductive Stmt where
  /-- A term whose value is dropped. -/
  | drop (e : Term)
  | bind (x : String) (e : Term)
  | ret (e : Term)
  | ifElse (c : Term) (yes no : List Stmt)
  | block (body : List Stmt)
  | whileLoop (c : Term) (body : List Stmt)
  | repeatLoop (count : Term) (body : List Stmt)
  | countedLoop (count : Term) (body : List Stmt)
  /-- A `for`, whose condition may be bound to a name at every pass. -/
  | forLoop (init : Stmt) (bound : Option String) (c : Term) (step : Stmt) (body : List Stmt)

end

def Kinds.bind (Γ : Kinds) (x : String) (k : Option Scalar) : Kinds :=
  match k with
  | some k => (x, k) :: Γ
  | none => Γ

mutual

def Term.kind? (Γ : Kinds) : Term → Option Scalar
  | .lit k _ => some k
  | .name x => Γ.lookup x
  | .arithmetic _ l r => Scalar.join (l.kind? Γ) (r.kind? Γ)
  | .negate e => (e.kind? Γ).filter Scalar.isSigned
  | .comparison .. | .conjunction .. | .disjunction .. | .not _ => some .bool
  | .selection _ args => Scalar.joinAll (Term.kinds Γ args)
  | .convert k _ => some k
  | .assign x _ => Γ.lookup x
  | .step _ x => Γ.lookup x
  | .ifElse _ yes no => Scalar.merge (yes.kind? Γ) (no.kind? Γ)
  | .block b => b.kind? Γ

def Term.kinds (Γ : Kinds) : List Term → List (Option Scalar)
  | [] => []
  | e :: rest => e.kind? Γ :: Term.kinds Γ rest

def Body.kind? (Γ : Kinds) : Body → Option Scalar
  | .value before last => last.kind? (Stmt.scopeAll Γ before)
  | .ret .. => none

def Stmt.scope (Γ : Kinds) : Stmt → Kinds
  | .bind x e => Γ.bind x (e.kind? Γ)
  | _ => Γ

def Stmt.scopeAll (Γ : Kinds) : List Stmt → Kinds
  | [] => Γ
  | s :: rest => Stmt.scopeAll (s.scope Γ) rest

end

/-- Whether a term is a statement of its own where its value is not used. -/
def Term.isBlock : Term → Bool
  | .ifElse .. | .block _ => true
  | _ => false

section
variable (T : Scalar)

mutual

/-- The expression is a term in the given scope, in a definition that returns `T`. -/
inductive IsTerm : Kinds → Expr → Term → Prop
  | int32 {Γ ts n} : IsTerm Γ (.literal ts (.int n .i32)) (.lit .i32 n.toInt)
  | int64 {Γ ts n} : IsTerm Γ (.literal ts (.int n .i64)) (.lit .i64 n.toInt)
  | uint64 {Γ ts n} : IsTerm Γ (.literal ts (.uint n)) (.lit .u64 n.toNat)
  | bool {Γ ts b} : IsTerm Γ (.literal ts (.bool b)) (.lit .bool (if b then 1 else 0))
  | name {Γ ts x} : IsTerm Γ (.name ts x) (.name x)
  | call {Γ ts c b a} (plain : c.isBinding = false) (builtin : c.builtin? = some b) (h : IsCall Γ c b.cls a) :
    IsTerm Γ (.call ts c) a

/-- The call of a builtin is a term. What is assigned to a binding is of the binding's own kind. -/
inductive IsCall : Kinds → Call → BuiltinClass → Term → Prop
  | arithmetic {Γ c op l r a b} (args : c.args = [l, r]) (hl : IsTerm Γ l a) (hr : IsTerm Γ r b) :
    IsCall Γ c (.arithmetic op) (.arithmetic op a b)
  | negate {Γ c e a} (args : c.args = [e]) (he : IsTerm Γ e a) : IsCall Γ c .negate (.negate a)
  | comparison {Γ c op l r a b} (args : c.args = [l, r]) (hl : IsTerm Γ l a) (hr : IsTerm Γ r b) :
    IsCall Γ c (.comparison op) (.comparison op a b)
  | conjunction {Γ c l r a b} (args : c.args = [l, r]) (hl : IsTerm Γ l a) (hr : IsTerm Γ r b) :
    IsCall Γ c .conjunction (.conjunction a b)
  | disjunction {Γ c l r a b} (args : c.args = [l, r]) (hl : IsTerm Γ l a) (hr : IsTerm Γ r b) :
    IsCall Γ c .disjunction (.disjunction a b)
  | not {Γ c e a} (args : c.args = [e]) (he : IsTerm Γ e a) : IsCall Γ c .not (.not a)
  | selection {Γ c f as} (h : AreTerms Γ c.args as) : IsCall Γ c (.math (Selection.function f)) (.selection f as)
  | convert {Γ c k e a} (args : c.args = [e]) (target : c.convertTarget = .ok (Scalar.kind k)) (wide : k ≠ .i32)
    (he : IsTerm Γ e a) : IsCall Γ c .convert (.convert k a)
  | assign {Γ c ts x e a k} (args : c.args = [.name ts x, e]) (he : IsTerm Γ e a) (hx : Γ.lookup x = some k)
    (own : a.kind? Γ = some k) : IsCall Γ c .assign (.assign x a)
  | step {Γ c op ts x} (args : c.args = [.name ts x]) : IsCall Γ c (.step op) (.step op x)
  | ifElse {Γ c e a yes no ys ns y n} (args : c.args = [e, yes, no]) (he : IsTerm Γ e a) (hyes : yes.body? = some ys)
    (hno : no.body? = some ns) (hy : IsBody Γ ys y) (hn : IsBody Γ ns n) : IsCall Γ c .ifElse (.ifElse a y n)
  | block {Γ c es b} (body : c.body = some es) (h : IsBody Γ es b) : IsCall Γ c .block (.block b)

inductive AreTerms : Kinds → List Expr → List Term → Prop
  | nil {Γ} : AreTerms Γ [] []
  | cons {Γ e a es as} (h : IsTerm Γ e a) (hs : AreTerms Γ es as) : AreTerms Γ (e :: es) (a :: as)

inductive IsBody : Kinds → List Expr → Body → Prop
  | value {Γ es ss e a} (hs : AreStmts Γ es ss) (h : IsTerm (Stmt.scopeAll Γ ss) e a) :
    IsBody Γ (es ++ [e]) (.value ss a)
  | ret {Γ es ss e a} (hs : AreStmts Γ es ss) (h : IsReturn (Stmt.scopeAll Γ ss) e a) :
    IsBody Γ (es ++ [e]) (.ret ss a)

inductive IsReturn : Kinds → Expr → Term → Prop
  | call {Γ ts c e a} (plain : c.isPlain = true) (ret : c.name = "return") (args : c.args = [e]) (he : IsTerm Γ e a)
    (kind : a.kind? Γ = some T) : IsReturn Γ (.call ts c) a

/-- The expression is a statement. A binding has no declared type. -/
inductive IsStmt : Kinds → Expr → Stmt → Prop
  | drop {Γ e a} (h : IsTerm Γ e a) (plain : a.isBlock = false) : IsStmt Γ e (.drop a)
  | bind {Γ ts c e a} (binding : c.isBinding = true) (untyped : ∀ t ∈ ts, t.name ∈ BindingType.qualifiers)
    (args : c.args.head? = some e) (he : IsTerm Γ e a) : IsStmt Γ (.call ts c) (.bind c.name a)
  | ret {Γ e a} (h : IsReturn Γ e a) : IsStmt Γ e (.ret a)
  | control {Γ ts c b s} (plain : c.isBinding = false) (builtin : c.builtin? = some b) (h : IsControl Γ c b.cls s) :
    IsStmt Γ (.call ts c) s

/-- The call of a builtin is a branch, a block or a loop. -/
inductive IsControl : Kinds → Call → BuiltinClass → Stmt → Prop
  | ifElse {Γ c e a yes no ys ns y n} (args : c.args = [e, yes, no]) (he : IsTerm Γ e a) (hyes : yes.body? = some ys)
    (hno : no.body? = some ns) (hy : AreStmts Γ ys y) (hn : AreStmts Γ ns n) : IsControl Γ c .ifElse (.ifElse a y n)
  | block {Γ c es ss} (body : c.body = some es) (h : AreStmts Γ es ss) : IsControl Γ c .block (.block ss)
  | whileLoop {Γ c e a es ss} (args : c.args = [e]) (body : c.body = some es) (he : IsTerm Γ e a)
    (h : AreStmts Γ es ss) : IsControl Γ c .whileLoop (.whileLoop a ss)
  | repeatLoop {Γ c e a es ss} (args : c.args = [e]) (body : c.body = some es) (he : IsTerm Γ e a)
    (h : AreStmts Γ es ss) : IsControl Γ c .repeatLoop (.repeatLoop a ss)
  | countedLoop {Γ c e a es ss} (args : c.args = [e]) (body : c.body = some es) (he : IsTerm Γ e a)
    (h : AreStmts Γ es ss) : IsControl Γ c .countedLoop (.countedLoop a ss)
  | forLoop {Γ Δ c init cond step es i x a st ss} (args : c.args = [init, cond, step]) (body : c.body = some es)
    (hi : IsStmt Γ init i) (hc : IsCondition (i.scope Γ) cond x a Δ) (hs : IsStmt Δ step st)
    (h : AreStmts Δ es ss) : IsControl Γ c .forLoop (.forLoop i x a st ss)

/-- The expression is the condition of a `for`, which may be bound to a name in the scope `Δ` of a pass. -/
inductive IsCondition : Kinds → Expr → Option String → Term → Kinds → Prop
  | term {Γ e a} (h : IsTerm Γ e a) : IsCondition Γ e none a Γ
  | bind {Γ e x a} (h : IsStmt Γ e (.bind x a)) : IsCondition Γ e (some x) a (Γ.bind x (a.kind? Γ))

inductive AreStmts : Kinds → List Expr → List Stmt → Prop
  | nil {Γ} : AreStmts Γ [] []
  | cons {Γ e s es ss} (h : IsStmt Γ e s) (hs : AreStmts (s.scope Γ) es ss) : AreStmts Γ (e :: es) (s :: ss)

end

end
end FlatCode.Source
