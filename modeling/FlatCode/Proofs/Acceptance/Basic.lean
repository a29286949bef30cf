import FlatCode.Check.Program
import FlatCode.Proofs.Results
import FlatCode.Proofs.Within

/-! Which expressions and statements are accepted, and as which operands, as a relation: what a check has seen of an
    expression, without the order in which it has looked. Some of it holds of regular programs only; where it matters,
    `exact` says whether the program is one. -/

namespace FlatCode

/-! ### Regular expressions -/

namespace Expr

mutual

/-- Whether an expression has no value of its own because its last statement is a `return`. -/
def endsInReturn : Expr → Bool
  | .call _ ⟨f, args, _, body, _, isBinding, isMethod⟩ =>
    if isBinding || isMethod then false
    else match (Builtin.lookup? f).map Builtin.cls, args with
      | some .block, _ => bodyEndsInReturn body
      | some .ifElse, [_, yes, no] => branchEndsInReturn yes && branchEndsInReturn no
      | _, _ => false
  | _ => false

def listEndsInReturn : List Expr → Bool
  | [] => false
  | [e] => e.isCallTo "return" || endsInReturn e
  | _ :: rest => listEndsInReturn rest

def bodyEndsInReturn : Option (List Expr) → Bool
  | none => false
  | some l => listEndsInReturn l

def branchEndsInReturn : Expr → Bool
  | .call _ ⟨_, _, _, body, _, _, _⟩ => bodyEndsInReturn body
  | _ => false

end
end Expr

def BuiltinClass.isOperator : BuiltinClass → Bool
  | .arithmetic _ | .negate | .comparison _ | .conjunction | .disjunction | .not | .math _ | .convert => true
  | _ => false

def CallOf.class? (c : Call) : Option BuiltinClass := if c.isBinding then none else c.builtin?.map (·.cls)

/-- Whether a call is a builtin's or one of the given names, and needs nothing that is told only where it is lowered: its
    operands have values, a method's receiver is a name or a literal, and the declaration in a `for` has no effects of its
    own. -/
def CallOf.isRegular (names : List (Bool × String)) (c : Call) : Bool :=
  (c.isBinding || c.builtin?.isSome || names.contains (c.isMethod, c.name)) &&
    (c.class? == some .ifElse || c.args.all fun e => !e.endsInReturn) &&
    (!c.isMethod || c.args.head?.any fun e => e.call?.isNone) &&
    (c.class? != some .forLoop || c.args[1]?.all fun e => !(e.isBinding && e.hasTransform "effects"))

namespace Expr

mutual

def isRegular (names : List (Bool × String)) : Expr → Bool
  | .call _ ⟨f, args, labels, body, templateArgs, isBinding, isMethod⟩ =>
    CallOf.isRegular names ⟨f, args, labels, body, templateArgs, isBinding, isMethod⟩ && listRegular names args &&
      bodyRegular names body
  | _ => true

def listRegular (names : List (Bool × String)) : List Expr → Bool
  | [] => true
  | e :: rest => isRegular names e && listRegular names rest

def bodyRegular (names : List (Bool × String)) : Option (List Expr) → Bool
  | none => true
  | some l => listRegular names l

end
end Expr

/-- Whether an expression is a literal, a name or a call of an operator, without effects. -/
def Expr.isNeutral : Expr → Bool
  | .literal ts _ | .name ts _ => !ts.any (·.name == "effects")
  | .call ts c => !ts.any (·.name == "effects") && !c.isBinding && c.builtin?.any (·.cls.isOperator) &&
      (Effect.requiredBy? c.name).isNone

/-- Whether a parameter declares its type and has no default but one of literals, names and operators. -/
def Expr.isRegularParameter (names : List (Bool × String)) (e : Expr) : Bool :=
  (e.transforms.any fun t => !BindingType.qualifiers.contains t.name) && e.isRegular names &&
    e.initial?.all fun i => i.within.all isNeutral

/-- Whether a definition has no template parameters, declares its parameters and its result, and has a regular body. -/
def Definition.isRegular (names : List (Bool × String)) (d : Definition) : Bool :=
  d.templateArgs.isEmpty && d.parameters.all (Expr.isRegularParameter names) &&
    (d.hasTransform "return" || !Returns.containsValue d.body) && Expr.listRegular names d.body

/-- The names that are called at a path, by a definition that is not a struct, each with whether it is a method's. -/
def Scope.calledAt (scope : Scope) (path : String) : List (Bool × String) :=
  let definitions := scope.definitions.filter fun d => d.path == path && !d.isStruct
  (Expr.withinList (definitions.flatMap (·.expressions))).filterMap fun e =>
    e.call?.bind fun c => if c.isBinding then none else some (c.isMethod, c.name)

/-- The paths from which a program is lowered: that of its entry, and those of what a call at such a path may mean. -/
inductive Scope.Reaches (scope : Scope) (entry : String) : String → Prop
  | entry : Reaches scope entry entry
  | function {path x d} (h : Reaches scope entry path) (hx : (false, x) ∈ scope.calledAt path)
    (hd : scope.resolve? x path = some d) : Reaches scope entry d.path
  | method {path x owner d} (h : Reaches scope entry path) (hx : (true, x) ∈ scope.calledAt path)
    (hd : scope.get? (owner ++ "/" ++ x) = some d) : Reaches scope entry d.path

/-- All that is lowered of a program is regular, and its entry is named by its own path. -/
def Program.Regular (p : Program) (entry : String) : Prop :=
  p.definitions.any (·.path == entry) = true ∧ ∀ scope, Scope.build p = .ok scope → ∀ d ∈ p.definitions,
    d.isStruct = false → scope.Reaches entry d.path → d.isRegular (scope.calledAt d.path) = true

/-! ### Acceptance -/

def BuiltinClass.isControl : BuiltinClass → Bool
  | .ret | .ifElse | .repeatLoop | .countedLoop | .whileLoop | .forLoop | .block | .print .. | .heap | .pathspace => true
  | _ => false

namespace Check

abbrev Context.called (ctx : Context) : List (Bool × String) := ctx.scope.calledAt ctx.home

abbrev Context.Regular (ctx : Context) (e : Expr) : Prop := e.isRegular ctx.called = true

def simpleOperand (env : Env) : Expr → Operand
  | .literal _ l => .value (Kind.ofLiteral l)
  | .name _ x => ((env.lookup x).map Binding.operand).getD .unknown
  | .call .. => .unknown

section
variable (exact : Prop)

def Enters (ctx : Context) (e : Expr) (ctx' : Context) : Prop :=
  ∃ effects, ctx' = { ctx with effects } ∧ (exact → ctx.effects.inside ctx.home e = .ok effects)

inductive Means (ctx : Context) (env : Env) (c : Call) (d : Definition) : Prop
  | function (hmethod : c.isMethod = false) (hd : ctx.scope.resolve? c.name ctx.home = some d)
  | method {receiver rest} (hmethod : c.isMethod = true) (hargs : c.args = receiver :: rest)
    (hmem : d ∈ ctx.scope.definitions)
    (hd : exact → ∃ owner, methodOwner? env receiver (simpleOperand env receiver).kind = some owner ∧
      ctx.scope.get? (owner ++ "/" ++ c.name) = some d)

mutual

inductive Accepts : Context → Env → Expr → Operand → Prop
  | literal {ctx ctx' env ts l} (henter : Enters exact ctx (.literal ts l) ctx') :
    Accepts ctx env (.literal ts l) (.value (Kind.ofLiteral l))
  | name {ctx ctx' env ts x b} (henter : Enters exact ctx (.name ts x) ctx') (hb : env.lookup x = some b) :
    Accepts ctx env (.name ts x) b.operand
  | builtin {ctx ctx' env ts c b o} (henter : Enters exact ctx (.call ts c) ctx') (hbinding : c.isBinding = false)
    (hb : c.builtin? = some b) (hshape : builtinShape ctx' b c = .ok ()) (hregular : exact → c.isRegular ctx'.called = true)
    (hvalue : AcceptsBuiltin ctx' env c b.cls o) : Accepts ctx env (.call ts c) o
  | call {ctx ctx' env ts c d o} (henter : Enters exact ctx (.call ts c) ctx') (hbinding : c.isBinding = false)
    (hb : c.builtin? = none) (hregular : exact → c.isRegular ctx'.called = true) (hcall : AcceptsCall ctx' env c d)
    (ho : o = .value .int32 ∧ d.isStruct = true ∨ d.isStruct = false ∧ ∃ info, d.Gives info ∧ o = .value info.kind) :
    Accepts ctx env (.call ts c) o

inductive AcceptsAll : Context → Env → List Expr → List Operand → Prop
  | nil {ctx env} : AcceptsAll ctx env [] []
  | cons {ctx env e o l operands} (h : Accepts ctx env e o) (hl : AcceptsAll ctx env l operands) :
    AcceptsAll ctx env (e :: l) (o :: operands)

inductive AcceptsCall : Context → Env → Call → Definition → Prop
  | mk {ctx env c d params fillings operands} (hmeans : Means exact ctx env c d)
    (hparams : d.callParameters = .ok params)
    (hfillings : Arguments.order d.path params c.args.length c.labels = .ok fillings)
    (hargs : AcceptsAll ctx env c.args operands)
    (hfits : ∀ param i arg actual type, (param, Filling.argument i) ∈ params.zip fillings → c.args[i]? = some arg →
      operands[i]? = some actual → BindingType.declared? ctx.scope d.templateArgs param.transforms = .ok (some type) →
      ∃ collection, collection? ctx.templates env arg = .ok collection ∧ fits type collection actual = true) :
    AcceptsCall ctx env c d

inductive AcceptsPointer : Context → Env → Expr → Kind → Prop
  | reference {ctx env ts x b} (hb : env.lookup x = some b) (hshape : b.type.shape = .reference) :
    AcceptsPointer ctx env (.name ts x) b.type.kind
  | pointer {ctx env e k} (hno : referenced? env e = none) (h : Accepts ctx env e (.pointer k)) :
    AcceptsPointer ctx env e k

/-- A call of a builtin is accepted and leaves an operand. Operands that are not known are not looked at further. -/
inductive AcceptsBuiltin : Context → Env → Call → BuiltinClass → Operand → Prop
  | arithmetic {ctx env c op l r ol or o} (hargs : c.args = [l, r]) (hl : Accepts ctx env l ol)
    (hr : Accepts ctx env r or)
    (h : ol ≠ .unknown → or ≠ .unknown → ∃ resolution, op.resolve ol or = .ok resolution ∧ o = resolution.result) :
    AcceptsBuiltin ctx env c (.arithmetic op) o
  | negate {ctx env c e oe o} (hargs : c.args = [e]) (he : Accepts ctx env e oe)
    (h : oe ≠ .unknown → ∃ w, resolveNegate oe = .ok w ∧ o = .value w.kind) : AcceptsBuiltin ctx env c .negate o
  | comparison {ctx env c op l r ol or} (hargs : c.args = [l, r]) (hl : Accepts ctx env l ol)
    (hr : Accepts ctx env r or) (h : ol ≠ .unknown → or ≠ .unknown → ∃ w, resolveComparison ol or = .ok w) :
    AcceptsBuiltin ctx env c (.comparison op) (.value .bool)
  | boolean {ctx env c cls operands} (hcls : cls = .conjunction ∨ cls = .disjunction ∨ cls = .not)
    (hargs : AcceptsAll ctx env c.args operands) (h : ∀ o ∈ operands, o.isCondition = true) :
    AcceptsBuiltin ctx env c cls (.value .bool)
  | math {ctx env c f operands o} (hargs : AcceptsAll ctx env c.args operands)
    (h : .unknown ∉ operands → ∃ w, resolveMath c.name operands = .ok w ∧ o = .value w.kind) :
    AcceptsBuiltin ctx env c (.math f) o
  | convert {ctx env c e oe k} (hargs : c.args = [e]) (hk : c.convertTarget = .ok k) (he : Accepts ctx env e oe)
    (h : oe.isPointer = false) : AcceptsBuiltin ctx env c .convert (.value k)
  | location {ctx env c ts x b} (hargs : c.args = [.name ts x]) (hb : env.lookup x = some b) :
    AcceptsBuiltin ctx env c .location (.pointer b.type.kind)
  | dereference {ctx env c e k} (hargs : c.args = [e]) (h : AcceptsPointer ctx env e k) :
    AcceptsBuiltin ctx env c .dereference (.value k)
  | assignName {ctx env c ts x b value ov} (hargs : c.args = [.name ts x, value]) (hb : env.lookup x = some b)
    (hv : Accepts ctx env value ov) : AcceptsBuiltin ctx env c .assign b.operand
  | assign {ctx env c target value o ov} (hargs : c.args = [target, value])
    (htarget : target.isCallTo "dereference" = true) (ht : Accepts ctx env target o) (hv : Accepts ctx env value ov) :
    AcceptsBuiltin ctx env c .assign o
  | stepName {ctx env c op ts x b} (hargs : c.args = [.name ts x]) (hb : env.lookup x = some b)
    (hshape : b.type.shape = .value ∨ b.type.shape = .reference)
    (hkind : b.type.kind.isNumeric = true ∨ b.type.kind = .unknown) :
    AcceptsBuiltin ctx env c (.step op) (.value b.type.kind)
  | step {ctx env c op target o} (hargs : c.args = [target]) (htarget : target.isCallTo "dereference" = true)
    (ht : Accepts ctx env target o) (hkind : o.kind.isNumeric = true ∨ o.kind = .unknown) :
    AcceptsBuiltin ctx env c (.step op) (.value o.kind)
  | ifElse {ctx env c cond yes no ys ns oc a b o} (hargs : c.args = [cond, yes, no]) (hc : Accepts ctx env cond oc)
    (hcond : oc.isCondition = true) (hyes : Returns.branchBody yes = .ok ys) (hno : Returns.branchBody no = .ok ns)
    (ha : AcceptsBlock ctx env ys a) (hb : AcceptsBlock ctx env ns b) (hmerge : mergeBranches a b = .ok o) :
    AcceptsBuiltin ctx env c .ifElse o
  | block {ctx env c o} (h : AcceptsBlock ctx env (c.body.getD []) o) : AcceptsBuiltin ctx env c .block o
  | count {ctx env c target o} (hargs : c.args = [target]) (ht : Accepts ctx env target o) :
    AcceptsBuiltin ctx env c .count (.value .int32)
  | index {ctx env c checked target position ot op o collection} (hargs : c.args = [target, position])
    (ht : Accepts ctx env target ot) (hp : Accepts ctx env position op)
    (hcollection : collection? ctx.templates env target = .ok collection)
    (hindex : (∀ type, collection = some type → type.shape ≠ .map) → isIndex op = true)
    (ho : o = .value ((collection.map (·.kind)).getD .int32)) : AcceptsBuiltin ctx env c (.index checked) o
  | collection {ctx env c form type operands} (hargs : AcceptsAll ctx env c.args operands)
    (htype : BindingType.collection ctx.templates form c.name c.templateArgs = .ok type)
    (hpairs : form = .map → c.args.length % 2 = 0) (h : ∀ o ∈ operands, o.isPointer = false) :
    AcceptsBuiltin ctx env c (.collection form) .unknown
  | heap {ctx env c} : AcceptsBuiltin ctx env c .heap .unknown

inductive AcceptsBlock : Context → Env → List Expr → Operand → Prop
  | value {ctx env env' body last o} (hlast : body.getLast? = some last)
    (hinit : AcceptsList ctx env body.dropLast env') (hbinding : last.isBinding = false)
    (hreturn : last.isCallTo "return" = false) (h : Accepts ctx env' last o) : AcceptsBlock ctx env body o
  | leave {ctx env env' env'' body last} (hlast : body.getLast? = some last)
    (hinit : AcceptsList ctx env body.dropLast env') (hbinding : last.isBinding = false)
    (hreturn : last.isCallTo "return" = true) (h : AcceptsStatement ctx env' last env'') :
    AcceptsBlock ctx env body .unknown

inductive AcceptsBinding : Context → Env → Expr → Option Expr → Binding → Prop
  | declared {ctx env e b} (htype : BindingType.declared? ctx.scope ctx.templates e.transforms = .ok (some b.type)) :
    AcceptsBinding ctx env e none b
  | initialized {ctx env e init b o collection}
    (htype : BindingType.declared? ctx.scope ctx.templates e.transforms = .ok (some b.type))
    (h : Accepts ctx env init o) (hcollection : collection? ctx.templates env init = .ok collection)
    (hfits : fits b.type collection o = true) : AcceptsBinding ctx env e (some init) b
  | collection {ctx env e init b o} (htype : BindingType.declared? ctx.scope ctx.templates e.transforms = .ok none)
    (h : Accepts ctx env init o) (hcollection : collection? ctx.templates env init = .ok (some b.type)) :
    AcceptsBinding ctx env e (some init) b
  | operand {ctx env e init b o} (htype : BindingType.declared? ctx.scope ctx.templates e.transforms = .ok none)
    (h : Accepts ctx env init o) (hcollection : collection? ctx.templates env init = .ok none)
    (hb : b.type = .ofOperand o (ctx.scope.built? init ctx.home)) : AcceptsBinding ctx env e (some init) b

inductive AcceptsStatement : Context → Env → Expr → Env → Prop
  | binding {ctx ctx' env ts c b} (henter : Enters exact ctx (.call ts c) ctx') (hbinding : c.isBinding = true)
    (hregular : exact → c.isRegular ctx'.called = true) (h : AcceptsBinding ctx' env (.call ts c) c.args.head? b) :
    AcceptsStatement ctx env (.call ts c) ((c.name, b) :: env)
  | builtin {ctx ctx' env ts c b} (henter : Enters exact ctx (.call ts c) ctx') (hbinding : c.isBinding = false)
    (hb : c.builtin? = some b) (hshape : builtinShape ctx' b c = .ok ()) (hregular : exact → c.isRegular ctx'.called = true)
    (h : AcceptsControl ctx' env (.call ts c) c b.cls) : AcceptsStatement ctx env (.call ts c) env
  | call {ctx ctx' env ts c d} (henter : Enters exact ctx (.call ts c) ctx') (hbinding : c.isBinding = false)
    (hb : c.builtin? = none) (hregular : exact → c.isRegular ctx'.called = true) (h : AcceptsCall ctx' env c d) :
    AcceptsStatement ctx env (.call ts c) env
  | value {ctx ctx' env e o} (henter : Enters exact ctx e ctx') (hcall : e.call? = none) (h : Accepts ctx' env e o) :
    AcceptsStatement ctx env e env

inductive AcceptsControl : Context → Env → Expr → Call → BuiltinClass → Prop
  | ret {ctx env e c} (hargs : c.args.head? = none) : AcceptsControl ctx env e c .ret
  | retValue {ctx env e c value o} (hargs : c.args.head? = some value) (hvoid : ctx.returns.isVoid = false)
    (h : Accepts ctx env value o) : AcceptsControl ctx env e c .ret
  | ifElse {ctx env env' env'' e c cond yes no ys ns o} (hargs : c.args = [cond, yes, no]) (hc : Accepts ctx env cond o)
    (hcond : o.isCondition = true) (hyes : Returns.branchBody yes = .ok ys) (hno : Returns.branchBody no = .ok ns)
    (ha : AcceptsList ctx env ys env') (hb : AcceptsList ctx env ns env'') : AcceptsControl ctx env e c .ifElse
  | counted {ctx env env' e c cls count o} (hcls : cls = .repeatLoop ∨ cls = .countedLoop) (hargs : c.args = [count])
    (hc : Accepts ctx env count o)
    (hkind : o.isPointer = false ∧ (o.kind.isInteger = true ∨ cls = .repeatLoop ∧ o.kind = .bool ∨ o.kind = .unknown))
    (hb : AcceptsList ctx env (c.body.getD []) env') : AcceptsControl ctx env e c cls
  | whileLoop {ctx env env' e c cond o} (hargs : c.args = [cond]) (hc : Accepts ctx env cond o)
    (hcond : o.isCondition = true) (hb : AcceptsList ctx env (c.body.getD []) env') :
    AcceptsControl ctx env e c .whileLoop
  | forLoop {ctx env env₁ env₂ env₃ e c init cond step o} (hargs : c.args = [init, cond, step])
    (hi : AcceptsStatement ctx env init env₁) (hc : Accepts ctx env₁ cond o) (hbinding : cond.isBinding = false)
    (hcond : o.isCondition = true) (hb : AcceptsList ctx env₁ (c.body.getD []) env₂)
    (hs : AcceptsList ctx env₁ [step] env₃) : AcceptsControl ctx env e c .forLoop
  | forDeclared {ctx env env₁ env₂ env₃ env₄ e c init cond step} (hargs : c.args = [init, cond, step])
    (hi : AcceptsStatement ctx env init env₁) (hc : AcceptsStatement ctx env₁ cond env₂)
    (hbinding : cond.isBinding = true) (hb : AcceptsList ctx env₂ (c.body.getD []) env₃)
    (hs : AcceptsList ctx env₂ [step] env₄) : AcceptsControl ctx env e c .forLoop
  | block {ctx env env' e c} (h : AcceptsList ctx env (c.body.getD []) env') : AcceptsControl ctx env e c .block
  | print {ctx env e c newline stderr value o} (hargs : c.args = [value]) (h : Accepts ctx env value o)
    (hpointer : o.isPointer = false) : AcceptsControl ctx env e c (.print newline stderr)
  | heap {ctx env e c cls} (hcls : cls = .heap ∨ cls = .pathspace) : AcceptsControl ctx env e c cls
  | value {ctx env e c cls o} (hcls : cls.isControl = false) (h : Accepts ctx env e o) : AcceptsControl ctx env e c cls

inductive AcceptsList : Context → Env → List Expr → Env → Prop
  | nil {ctx env} : AcceptsList ctx env [] env
  | cons {ctx env env' env'' e l} (h : AcceptsStatement ctx env e env') (hl : AcceptsList ctx env' l env'') :
    AcceptsList ctx env (e :: l) env''

end
inductive AcceptsParameters (ctx : Context) : Env → List Expr → Env → Prop
  | nil {env} : AcceptsParameters ctx env [] env
  | cons {env env' ts c b l} (hbinding : c.isBinding = true)
    (h : AcceptsBinding exact ctx env (.call ts c) c.args.head? b)
    (hl : AcceptsParameters ctx ((c.name, b) :: env) l env') : AcceptsParameters ctx env (.call ts c :: l) env'

def Setting.effectsOf (s : Setting) (d : Definition) : Except Error EffectSet :=
  EffectSet.active d.transforms (if d.path == s.entry then s.entryDefaults else s.defaults) d.path

structure AcceptsBody (s : Setting) (d : Definition) (ctx : Context) (env : Env) : Prop where
  scope : ctx.scope = s.scope
  home : ctx.home = d.path
  effects : s.effectsOf d = .ok ctx.effects
  returns : d.Gives ctx.returns
  templates : ctx.templates = d.templateArgs
  parameters : AcceptsParameters exact ctx [] d.parameters env
  body : ∃ env', AcceptsList exact ctx env d.body env'

/-- A definition is accepted; one that returns a value does so on every path. -/
structure AcceptsDefinition (s : Setting) (d : Definition) : Prop where
  effects : ∃ effects, s.effectsOf d = .ok effects
  gives : ∃ info, d.Gives info
  fields : d.isStruct = true → ∃ fields, d.fields = .ok fields
  body : d.isStruct = false → ∃ ctx env, AcceptsBody exact s d ctx env
  paths : d.isStruct = false → d.hasValue = true → Returns.blockAlways d.body = true

end
/-! ### Programs -/

def Checking.Passes (x : Checking Unit) : Prop := ∃ t, x [] = .ok ((), t)

structure Setting.Of (s : Setting) (p : Program) (entry : String) (defaults entryDefaults : List String) (d : Definition) :
    Prop where
  scope : Scope.build p = .ok s.scope
  depth : s.depth = p.depth
  entry_eq : s.entry = entry
  defaults : EffectSet.parse defaults "default effects" = .ok s.defaults
  entryDefaults : EffectSet.parse entryDefaults "entry default effects" = .ok s.entryDefaults
  get : s.scope.get? entry = some d
  entry : checkEntry s.scope d = .ok ()

def Setting.checkAll (s : Setting) (p : Program) : Checking Unit := do
  p.definitions.forM s.checkDefinition
  p.executions.forM s.checkExecution

theorem check_eq_ok_iff {p : Program} {entry : String} {defaults entryDefaults : List String} :
    p.check entry defaults entryDefaults = .ok () ↔
      ∃ s d, Setting.Of s p entry defaults entryDefaults d ∧ (s.checkAll p).Passes := by
  constructor
  · intro h
    obtain ⟨scope, hscope, h₁⟩ := Stateful.except_bind_eq_ok.mp h
    obtain ⟨defaults', hdefaults, h₂⟩ := Stateful.except_bind_eq_ok.mp h₁
    obtain ⟨entryDefaults', hentryDefaults, h₃⟩ := Stateful.except_bind_eq_ok.mp h₂
    split at h₃
    · cases h₃
    case h_2 d hd =>
      obtain ⟨⟨⟩, hentry, h₄⟩ := Stateful.except_bind_eq_ok.mp h₃
      obtain ⟨⟨⟨⟩, t⟩, hrun, -⟩ := Stateful.except_bind_eq_ok.mp h₄
      exact ⟨{ scope, depth := p.depth, entry, defaults := defaults', entryDefaults := entryDefaults' }, d,
        ⟨hscope, rfl, rfl, hdefaults, hentryDefaults, hd, hentry⟩, t, hrun⟩
  · rintro ⟨⟨scope, _, entry, _, _⟩, d, ⟨hscope, rfl, rfl, hdefaults, hentryDefaults, hd, hentry⟩, t, hrun⟩
    unfold Program.check
    rw [hscope, hdefaults, hentryDefaults]
    dsimp only [bind, Except.bind]
    rw [hd]
    show (checkEntry scope d >>= fun _ => _) = _
    rw [hentry]
    show (Setting.checkAll _ p [] >>= fun _ => _) = _
    rw [hrun]
    rfl

end Check
end FlatCode
