import FlatCode.Lower.Inference
import FlatCode.Proofs.Agreement.Types
import FlatCode.Proofs.Results

/-! Results that can be told by rule. The rules give the operand that an expression leaves, where the types of names and
    the results of some definitions are known; the results of a program are told one after the other, each from those
    before it. A result that is told is found, if what the rules tell of its body is found (`finds_returnInfo`). -/

namespace FlatCode
open Stateful

abbrev Types := List (String × BindingType)

abbrev ResultTable := List (String × Kind)

/-- What a definition returns, if it declares it, has no value, or its result is known. -/
def Definition.result? (known : ResultTable) (d : Definition) : Option ReturnInfo :=
  match ReturnInfo.declared? d with
  | .ok (some info) => some info
  | .ok none => if d.isStruct || !Returns.containsValue d.body then some .void else (known.lookup d.path).map .value
  | .error _ => none

def BindingType.operand (t : BindingType) : Operand := if t.shape = .pointer then .pointer t.kind else .value t.kind

def Types.struct? (Γ : Types) : Expr → Option String
  | .name _ x => (Γ.lookup x).bind (·.struct)
  | _ => none

/-- The struct of a method's receiver, or else the namespace of its kind. -/
def Types.owner? (Γ : Types) (receiver : Expr) (kind : Kind) : Option String :=
  (Γ.struct? receiver).or (if kind = .unknown then none else some (Path.atRoot kind.typeName))

namespace BuiltinClass

def isTruth : BuiltinClass → Bool
  | .comparison _ | .conjunction | .disjunction | .not => true
  | _ => false

def isChange : BuiltinClass → Bool
  | .assign | .step _ => true
  | _ => false

end BuiltinClass

/-! ### Rules -/

inductive Collects (Γ : Types) : Expr → BindingType → Prop
  | name {ts x t} (bound : Γ.lookup x = some t) (collection : t.shape.isCollection = true) (settled : t.Settled) :
    Collects Γ (.name ts x) t
  | literal {ts c t} (type : BindingType.ofLiteral? [] c = .ok (some t)) : Collects Γ (.call ts c) t

inductive Spells (Γ : Types) : Expr → Prop
  | name {ts x t} (bound : Γ.lookup x = some t) (shape : t.shape = .value) (kind : t.kind = .string) :
    Spells Γ (.name ts x)
  | literal {ts text} : Spells Γ (.literal ts (.string text))

section
variable (scope : Scope) (known : ResultTable) (home : String)

mutual

inductive Tells : Types → Expr → Operand → Prop
  | literal {Γ ts l} : Tells Γ (.literal ts l) (.value (Kind.ofLiteral l))
  | name {Γ ts x t} (bound : Γ.lookup x = some t) (scalar : t.shape.isCollection = false) :
    Tells Γ (.name ts x) t.operand
  | builtin {Γ ts c cls o} (call : c.isBinding = false) (builtin : c.builtin?.map (·.cls) = some cls)
    (operand : TellsBuiltin Γ c cls o) : Tells Γ (.call ts c) o
  | struct {Γ ts c d} (callee : Calls Γ c d) (struct : d.isStruct = true) : Tells Γ (.call ts c) (.value .int32)
  | call {Γ ts c d info} (callee : Calls Γ c d) (code : d.isStruct = false) (result : d.result? known = some info)
    (value : info.isVoid = false) : Tells Γ (.call ts c) (.value info.kind)

inductive TellsAll : Types → List Expr → List Operand → Prop
  | nil {Γ} : TellsAll Γ [] []
  | cons {Γ e l o os} (head : Tells Γ e o) (tail : TellsAll Γ l os) : TellsAll Γ (e :: l) (o :: os)

/-- A call of a builtin leaves an operand; both branches of an `if` leave the same one. -/
inductive TellsBuiltin : Types → Call → BuiltinClass → Operand → Prop
  | arithmetic {Γ c op a b r} (args : TellsAll Γ c.args [a, b]) (resolved : op.resolve a b = .ok r) :
    TellsBuiltin Γ c (.arithmetic op) r.result
  | negate {Γ c a w} (name : c.name = "negate") (args : TellsAll Γ c.args [a]) (resolved : resolveNegate a = .ok w) :
    TellsBuiltin Γ c .negate (.value w.kind)
  | math {Γ c f os w} (args : TellsAll Γ c.args os) (resolved : resolveMath c.name os = .ok w) :
    TellsBuiltin Γ c (.math f) (.value w.kind)
  | truth {Γ c cls} (truth : cls.isTruth = true) : TellsBuiltin Γ c cls (.value .bool)
  | convert {Γ c k} (target : c.convertTarget = .ok k) : TellsBuiltin Γ c .convert (.value k)
  | location {Γ c ts x rest t} (args : c.args = .name ts x :: rest) (bound : Γ.lookup x = some t)
    (addressable : t.kind ≠ .string) : TellsBuiltin Γ c .location (.pointer t.kind)
  | reference {Γ c ts x rest t} (args : c.args = .name ts x :: rest) (bound : Γ.lookup x = some t)
    (reference : t.shape = .reference) : TellsBuiltin Γ c .dereference (.value t.kind)
  | pointer {Γ c e rest k} (args : c.args = e :: rest) (operand : Tells Γ e (.pointer k)) :
    TellsBuiltin Γ c .dereference (.value k)
  | change {Γ c cls e rest k} (change : cls.isChange = true) (args : c.args = e :: rest)
    (operand : Tells Γ e (.value k)) : TellsBuiltin Γ c cls (.value k)
  | count {Γ c} : TellsBuiltin Γ c .count (.value .int32)
  | element {Γ c checked e rest t} (args : c.args = e :: rest) (collection : Collects Γ e t) :
    TellsBuiltin Γ c (.index checked) (.value t.kind)
  | byte {Γ c checked e rest} (args : c.args = e :: rest) (string : Spells Γ e) :
    TellsBuiltin Γ c (.index checked) (.value .int32)
  | ifElse {Γ c cond yes no y n o} (args : c.args = [cond, yes, no]) (yesBody : yes.body? = some y)
    (noBody : no.body? = some n) (yes : TellsBlock Γ y o) (no : TellsBlock Γ n o) : TellsBuiltin Γ c .ifElse o
  | block {Γ c l o} (body : c.body = some l) (block : TellsBlock Γ l o) : TellsBuiltin Γ c .block o

inductive Calls : Types → Call → Definition → Prop
  | plain {Γ c d} (plain : c.isPlain = true) (user : c.builtin? = none) (found : scope.resolve? c.name home = some d) :
    Calls Γ c d
  | method {Γ c d e rest o owner} (call : c.isBinding = false) (method : c.isMethod = true) (args : c.args = e :: rest)
    (operand : Tells Γ e o) (unbuilt : scope.built? e home = none) (owned : Γ.owner? e o.kind = some owner)
    (found : scope.get? (owner ++ "/" ++ c.name) = some d) : Calls Γ c d

inductive TellsBlock : Types → List Expr → Operand → Prop
  | mk {Γ Γ' l e o} (last : l.getLast? = some e) (declarations : TellsBindings Γ l.dropLast Γ')
    (value : e.isBinding = false) (stays : e.isCallTo "return" = false) (operand : Tells Γ' e o) : TellsBlock Γ l o

/-- A declaration gives a name its type: the declared one, or that of the initial value. -/
inductive TellsBinding : Types → Expr → BindingType → Prop
  | declared {Γ e t} (declared : BindingType.declared? scope [] e.transforms = .ok (some t))
    (supported : Lower.checkSupported (e.boundName?.getD "?") t = .ok ()) : TellsBinding Γ e t
  | collection {Γ e i t} (undeclared : BindingType.declared? scope [] e.transforms = .ok none)
    (initial : e.initial? = some i) (collection : Collects Γ i t) : TellsBinding Γ e t
  | operand {Γ e i o} (undeclared : BindingType.declared? scope [] e.transforms = .ok none)
    (initial : e.initial? = some i) (scalar : ∀ c, i.call? = some c → BindingType.form? c.name = none)
    (operand : Tells Γ i o) (told : o ≠ .value .unknown) (addressable : o ≠ .pointer .string) :
    TellsBinding Γ e (.ofOperand o (scope.built? i home))

inductive TellsBindings : Types → List Expr → Types → Prop
  | nil {Γ} : TellsBindings Γ [] Γ
  | skip {Γ Γ' e l} (other : e.boundName? = none) (rest : TellsBindings Γ l Γ') : TellsBindings Γ (e :: l) Γ'
  | cons {Γ Γ' e l x t} (name : e.boundName? = some x) (type : TellsBinding Γ e t)
    (rest : TellsBindings ((x, t) :: Γ) l Γ') : TellsBindings Γ (e :: l) Γ'

end

mutual

/-- The kind of the first value that some statements return, in the order of their text. -/
inductive First : Types → List Expr → Option Kind → Prop
  | nil {Γ} : First Γ [] none
  | skip {Γ e l r} (other : e.call? = none) (rest : First Γ l r) : First Γ (e :: l) r
  | declare {Γ ts c l t r} (binding : c.isBinding = true) (type : TellsBinding scope known home Γ (.call ts c) t)
    (rest : First ((c.name, t) :: Γ) l r) : First Γ (.call ts c :: l) r
  | value {Γ ts c e more l o} (plain : c.isPlain = true) (name : c.name = "return") (args : c.args = e :: more)
    (operand : Tells scope known home Γ e o) : First Γ (.call ts c :: l) (some o.kind)
  | leave {Γ ts c l r} (plain : c.isPlain = true) (name : c.name = "return") (args : c.args = []) (rest : First Γ l r) :
    First Γ (.call ts c :: l) r
  | found {Γ ts c l k} (call : c.isBinding = false) (other : c.name ≠ "return") (blocks : FirstIn Γ c.blocks (some k)) :
    First Γ (.call ts c :: l) (some k)
  | pass {Γ ts c l r} (call : c.isBinding = false) (other : c.name ≠ "return") (blocks : FirstIn Γ c.blocks none)
    (rest : First Γ l r) : First Γ (.call ts c :: l) r

inductive FirstIn : Types → List (List Expr) → Option Kind → Prop
  | nil {Γ} : FirstIn Γ [] none
  | found {Γ l more k} (block : First Γ l (some k)) : FirstIn Γ (l :: more) (some k)
  | pass {Γ l more r} (block : First Γ l none) (rest : FirstIn Γ more r) : FirstIn Γ (l :: more) r

end
end

/-- The results can be told one after the other, each from the parameters and the body of its definition. -/
inductive Told (scope : Scope) : ResultTable → Prop
  | nil : Told scope []
  | cons {known d Γ k} (rest : Told scope known) (mem : d ∈ scope.definitions) (closed : d.templateArgs = [])
    (fresh : known.lookup d.path = none) (parameters : TellsBindings scope known d.path [] d.parameters Γ)
    (body : First scope known d.path Γ d.body (some k)) : Told scope ((d.path, k) :: known)

/-! ### Results that are remembered -/

/-- The results that are remembered are among those told. -/
def Scope.Recalls (scope : Scope) (table : ResultTable) (cache : ReturnCache) : Prop :=
  ∀ d ∈ scope.definitions, ∀ info, cache.lookup d.path = some info → d.result? table = some info

/-- What is known where the results of `busy` are being told: the results told before them. -/
structure ResultTable.Before (table : ResultTable) (busy : List String) (known : ResultTable) : Prop where
  suffix : known <:+ table
  fresh : ∀ path ∈ busy, known.lookup path = none

variable {scope : Scope} {table known : ResultTable} {busy : List String} {d : Definition} {info : ReturnInfo}
  {k : Kind} {path : String}

theorem Told.lookup_of_suffix (h : Told scope table) (hsuffix : known <:+ table)
    (hlookup : known.lookup path = some k) : table.lookup path = some k := by
  induction h with
  | nil => rwa [List.suffix_nil.mp hsuffix] at hlookup
  | @cons rest d _ _ _ _ _ fresh _ _ ih =>
    rcases List.suffix_cons_iff.mp hsuffix with rfl | hsuffix
    · exact hlookup
    · have hrest := ih hsuffix
      rw [List.lookup_cons]
      cases hpath : path == d.path with
      | true =>
        rw [eq_of_beq hpath, fresh] at hrest
        exact nomatch hrest
      | false => exact hrest

theorem Told.of_suffix (h : Told scope table) (hsuffix : known <:+ table) : Told scope known := by
  induction h with
  | nil => exact List.suffix_nil.mp hsuffix ▸ .nil
  | cons rest mem closed fresh parameters body ih =>
    rcases List.suffix_cons_iff.mp hsuffix with rfl | hsuffix
    · exact .cons rest mem closed fresh parameters body
    · exact ih hsuffix

theorem Told.result?_of_suffix (h : Told scope table) (hsuffix : known <:+ table)
    (hresult : d.result? known = some info) : d.result? table = some info := by
  unfold Definition.result? at hresult ⊢
  split at hresult
  · exact hresult
  · split at hresult
    case isTrue hvoid => rwa [if_pos hvoid]
    case isFalse hvalue =>
      obtain ⟨k, hlookup, rfl⟩ := Option.map_eq_some_iff.mp hresult
      rw [if_neg hvalue, h.lookup_of_suffix hsuffix hlookup]
      rfl
  · exact nomatch hresult

/-- A result that is told is told from what came before it. -/
theorem Told.rule (h : Told scope table) (hdistinct : Definition.Distinct scope.definitions)
    (hd : d ∈ scope.definitions) (hlookup : table.lookup d.path = some k) :
    ∃ known Γ, known <:+ table ∧ known.lookup d.path = none ∧ d.templateArgs = [] ∧
      TellsBindings scope known d.path [] d.parameters Γ ∧ First scope known d.path Γ d.body (some k) := by
  induction h with
  | nil => exact nomatch hlookup
  | @cons rest d' Γ _ _ mem closed fresh parameters body ih =>
    rw [List.lookup_cons] at hlookup
    cases hpath : d.path == d'.path with
    | true =>
      rw [hpath] at hlookup
      cases hlookup
      obtain rfl := hdistinct d hd d' mem (eq_of_beq hpath)
      exact ⟨rest, Γ, List.suffix_cons _ _, fresh, closed, parameters, body⟩
    | false =>
      rw [hpath] at hlookup
      obtain ⟨known, Γ, hsuffix, hrule⟩ := ih hlookup
      exact ⟨known, Γ, hsuffix.trans (List.suffix_cons _ _), hrule⟩

theorem Scope.Recalls.cons {cache : ReturnCache} (h : scope.Recalls table cache)
    (hdistinct : Definition.Distinct scope.definitions) (hd : d ∈ scope.definitions)
    (hresult : d.result? table = some info) : scope.Recalls table ((d.path, info) :: cache) := by
  intro d' hd' info' hlookup
  rw [List.lookup_cons] at hlookup
  cases hpath : d'.path == d.path with
  | true =>
    rw [hpath] at hlookup
    cases hlookup
    obtain rfl := hdistinct d' hd' d hd (eq_of_beq hpath)
    exact hresult
  | false =>
    rw [hpath] at hlookup
    exact h d' hd' info' hlookup

/-! ### Computations with a certain result -/

section
variable {S : ReturnCache → Prop} {α β : Type} {a : α} {b : β}

/-- The computation keeps `S`, and it gives `a` unless it gets too deep. -/
abbrev Recall.Finds (S : ReturnCache → Prop) (m : Recall α) (a : α) : Prop := m.Meets S (· = a)

abbrev Infer.Finds (S : ReturnCache → Prop) (m : Infer α) (a : α) : Prop := m.Meets S (fun _ => False) (· = a)

theorem Recall.Finds.bind {m : Recall α} {f : α → Recall β} {Q : β → Prop} (h : m.Finds S a) (hf : (f a).Meets S Q) :
    (m >>= f).Meets S Q := Meets.bind h fun _ ha => ha ▸ hf

theorem Ends.eq {r : Except Error α} (h : Ends (fun _ => False) (· = a) r) : r = .ok a := by
  cases r with
  | ok => exact congrArg _ h
  | error => exact h.elim

namespace Infer.Finds
variable {m : Infer α} {f : α → Infer β} {x : Except Error α} {Q : β → Prop} {T : Error → Prop}

theorem bind (h : m.Finds S a) (hf : (f a).Meets S (fun _ => False) Q) : (m >>= f).Meets S (fun _ => False) Q :=
  Meets.bind h fun _ ha => ha ▸ hf

theorem lift (h : x = .ok a) : Infer.Finds S (liftM x) a := h ▸ Meets.lift (x := .ok a) rfl

theorem liftBind (h : x = .ok a) (hf : (f a).Meets S (fun _ => False) Q) :
    Meets S (fun _ => False) (liftM x >>= f) Q := (lift h).bind hf

/-- What is asked after an inference that has no fault. -/
theorem run {m : Infer α} {g : Except Error α → Recall β} (h : m.Finds S a) (hg : (g (.ok a)).Meets S Q) :
    Recall.Meets S (m.run >>= g) Q :=
  Recall.Meets.bind h fun r hr => match r, hr with
    | .ok _, ha => ha ▸ hg

end Infer.Finds
end

theorem finds_remember (hdistinct : Definition.Distinct scope.definitions) (hd : d ∈ scope.definitions)
    (hresult : d.result? table = some info) :
    Infer.Finds (scope.Recalls table) (liftM (ReturnCache.remember d.path info)) info := by
  refine .ofRecall fun c a c' hc hrun => ?_
  cases hrun
  exact ⟨hc.cons hdistinct hd hresult, rfl⟩

/-- A result that is known is found, if `infer` finds what the rules tell of it. -/
theorem finds_returnInfo {infer : List String → Definition → Recall Kind} (htable : Told scope table)
    (hdistinct : Definition.Distinct scope.definitions) (hknown : table.Before busy known) (hd : d ∈ scope.definitions)
    (hresult : d.result? known = some info)
    (hinfer : ∀ {known Γ k}, table.Before (d.path :: busy) known → d.templateArgs = [] →
      TellsBindings scope known d.path [] d.parameters Γ → First scope known d.path Γ d.body (some k) →
      (infer (d.path :: busy) d).Finds (scope.Recalls table) k) :
    Infer.Finds (scope.Recalls table) (d.returnInfo infer busy) info := by
  have htold := htable.result?_of_suffix hknown.suffix hresult
  refine Infer.Meets.bind .get fun cache hcache => ?_
  split
  case h_1 info' hlookup => exact .pure (Option.some.inj ((hcache d hd info' hlookup).symm.trans htold))
  case h_2 =>
    have hrule := hresult
    unfold Definition.result? at hrule
    split at hrule
    case h_1 declared hdeclared =>
      cases hrule
      exact Infer.Finds.liftBind hdeclared (finds_remember hdistinct hd htold)
    case h_2 hdeclared =>
      refine Infer.Finds.liftBind hdeclared ?_
      dsimp only
      split
      case isTrue hvoid =>
        rw [if_pos hvoid] at hrule
        cases hrule
        exact finds_remember hdistinct hd htold
      case isFalse hvalue =>
        rw [if_neg hvalue] at hrule
        obtain ⟨k, hlookup, rfl⟩ := Option.map_eq_some_iff.mp hrule
        split
        case isTrue hbusy =>
          rw [hknown.fresh d.path (List.contains_iff_mem.mp hbusy)] at hlookup
          exact nomatch hlookup
        case isFalse =>
          -- The rule of the result knows less than is known here, so no path that is busy either.
          have htold' := htable.of_suffix hknown.suffix
          obtain ⟨known', Γ, hsuffix, hfresh, hclosed, hparameters, hbody⟩ := htold'.rule hdistinct hd hlookup
          have hbefore : table.Before (d.path :: busy) known' := by
            refine ⟨hsuffix.trans hknown.suffix, List.forall_mem_cons.mpr ⟨hfresh, fun path hpath => ?_⟩⟩
            cases h : known'.lookup path with
            | none => rfl
            | some k => exact (htold'.lookup_of_suffix hsuffix h).symm.trans (hknown.fresh path hpath)
          have hkind := hinfer hbefore hclosed hparameters hbody
          exact Infer.Finds.bind (.ofRecall hkind) (finds_remember hdistinct hd htold)
    case h_3 => exact nomatch hrule

/-! ### Operands of single rules -/

section
variable {Γ : Types} {c : Call} {cls : BuiltinClass} {e : Expr} {o a : Operand} {w : Width} {t : BindingType}
  {home x : String} {ts : List Transform}

theorem lookup_map {α β γ : Type} [BEq α] (f : β → γ) (l : List (α × β)) (x : α) :
    (l.map fun p => (p.1, f p.2)).lookup x = (l.lookup x).map f := by
  induction l with
  | nil => rfl
  | cons p l ih =>
    rw [List.map_cons, List.lookup_cons, List.lookup_cons]
    cases x == p.1
    · exact ih
    · rfl

theorem ofTypeName?_of_convertTarget (h : c.convertTarget = .ok k) :
    c.templateArgs.head?.bind Kind.ofTypeName? = some k := by
  obtain ⟨target, htarget, h⟩ := except_bind_eq_ok.mp h
  obtain ⟨-, -, h⟩ := except_bind_eq_ok.mp h
  have hhead : c.templateArgs.head? = some target := by
    unfold BindingType.firstTemplate at htarget
    split at htarget
    · exact nomatch htarget
    · cases htarget
      rw [‹c.templateArgs = _›, List.head?_cons]
  rw [hhead, Option.bind_some]
  split at h
  · exact nomatch h
  · exact nomatch h
  case h_3 hkind =>
    cases h
    exact hkind

theorem isPlain_iff : c.isPlain = true ↔ c.isBinding = false ∧ c.isMethod = false := by
  rw [CallOf.isPlain, Bool.and_eq_true, Bool.not_eq_true', Bool.not_eq_true']

theorem TellsAll.uncons {l : List Expr} {os : List Operand} (h : TellsAll scope known home Γ l (o :: os)) :
    ∃ e rest, l = e :: rest ∧ Tells scope known home Γ e o ∧ TellsAll scope known home Γ rest os := by
  cases h with
  | cons head tail => exact ⟨_, _, rfl, head, tail⟩

theorem Spells.tells (h : Spells Γ e) (scope : Scope) (known : ResultTable) (home : String) :
    Tells scope known home Γ e (.value .string) := by
  cases h with
  | @name _ _ t bound shape kind =>
    have hoperand : t.operand = .value .string := by rw [BindingType.operand, shape, if_neg (by decide), kind]
    exact hoperand ▸ .name bound (by rw [shape]; rfl)
  | literal => exact .literal

theorem Spells.call? (h : Spells Γ e) : ∀ c, e.call? = some c → BindingType.form? c.name = none := by
  cases h <;> exact nofun

/-- The negation of a number is resolved like a function of it. -/
theorem resolveMath_of_resolveNegate (h : resolveNegate a = .ok w) : resolveMath "negate" [a] = .ok w := by
  cases a with
  | pointer => exact nomatch h
  | value k => cases k <;> cases h <;> rfl

theorem Calls.isBinding (h : Calls scope known home Γ c d) : c.isBinding = false := by
  cases h with
  | plain plain => exact (isPlain_iff.mp plain).1
  | method call => exact call

theorem Calls.builtin? (h : Calls scope known home Γ c d) : c.builtin? = none := by
  cases h with
  | plain _ user => exact user
  | method _ method => rw [CallOf.builtin?, if_pos method]

theorem Calls.mem (h : Calls scope known home Γ c d) : d ∈ scope.definitions := by
  cases h with
  | plain _ _ found => exact Scope.mem_of_resolve? found
  | method _ _ _ _ _ _ found => exact Scope.mem_of_get? found

end

end FlatCode
