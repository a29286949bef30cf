import FlatCode.Lower.Statement
import FlatCode.Proofs.Monad

/-! Giving up is a fault of the recursion alone: the rules on types, operators, effects, arguments and names, which do
    not follow the nesting of expressions, have other faults. -/

namespace FlatCode

def Shallow {α : Type} (x : Except Error α) : Prop := x ≠ .error .tooDeep

namespace Shallow
variable {α β : Type} {x : Except Error α} {f : α → Except Error β}

theorem ok {a : α} : Shallow (.ok a) := nofun

theorem bind (hx : Shallow x) (hf : ∀ a, Shallow (f a)) : Shallow (x >>= f) := by
  intro h
  rcases Stateful.except_bind_eq_error.mp h with h | ⟨a, -, h⟩
  · exact hx h
  · exact hf a h

theorem map {g : α → β} (hx : Shallow x) : Shallow (x.map g) := by
  cases x with
  | ok a => exact ok
  | error e => exact fun h => hx (congrArg Except.error (Except.error.inj h))

theorem check {failed : Prop} [Decidable failed] {e : Error} {k : Unit → Except Error α} (he : e ≠ .tooDeep)
    (hk : Shallow (k ())) : Shallow (if failed then throw e >>= k else k ()) := by
  split
  · exact fun h => he (Except.error.inj h)
  · exact hk

theorem mapM {g : α → Except Error β} (hg : ∀ a, Shallow (g a)) (l : List α) : Shallow (l.mapM g) := by
  induction l with
  | nil => exact ok
  | cons a l ih =>
    rw [List.mapM_cons]
    exact (hg a).bind fun _ => ih.bind fun _ => ok

end Shallow

namespace BindingType

variable {args templates : List String} {scope : Scope} {name : String}

theorem shallow_checkSoftwareNumeric : Shallow (checkSoftwareNumeric name) := by
  unfold checkSoftwareNumeric
  split <;> nofun

theorem shallow_element : Shallow (element templates name) := by
  unfold element
  split
  · nofun
  · refine shallow_checkSoftwareNumeric.bind fun _ => ?_
    split <;> nofun

theorem shallow_firstTemplate : Shallow (firstTemplate name args) := by
  unfold firstTemplate
  split <;> nofun

theorem shallow_collection {form : CollectionForm} : Shallow (collection templates form name args) := by
  unfold collection
  split
  · split
    · exact shallow_element.bind fun _ => shallow_element.bind fun _ => .ok
    · nofun
  · exact shallow_firstTemplate.bind fun _ => shallow_element.bind fun _ => .ok

theorem shallow_ofLiteral? {c : Call} : Shallow (ofLiteral? templates c) := by
  unfold ofLiteral?
  split
  · split
    · exact shallow_collection.map
    · nofun
  · nofun

theorem shallow_ofTransform {t : Transform} : Shallow (ofTransform scope templates t) := by
  refine shallow_checkSoftwareNumeric.bind fun _ => ?_
  split
  · exact shallow_firstTemplate.bind fun _ => shallow_element.bind fun _ => .ok
  · exact shallow_firstTemplate.bind fun _ => shallow_element.bind fun _ => .ok
  · split
    · exact shallow_collection
    · split
      · nofun
      · split
        · nofun
        · split <;> nofun

theorem shallow_declared? {transforms : List Transform} : Shallow (declared? scope templates transforms) := by
  unfold declared?
  split
  · exact shallow_ofTransform.map
  · nofun

end BindingType

variable {ε : Type} {c : CallOf ε} {d : Definition} {operands : List Operand} {l r : Operand} {name : String}

theorem ReturnInfo.shallow_declared? : Shallow (ReturnInfo.declared? d) := by
  unfold ReturnInfo.declared?
  split
  · nofun
  · split
    · nofun
    · split
      · nofun
      · split
        · nofun
        · refine BindingType.shallow_checkSoftwareNumeric.bind fun _ => ?_
          split
          · nofun
          · dsimp only
            split
            · split <;> nofun
            · nofun

theorem CallOf.shallow_convertTarget : Shallow c.convertTarget := by
  refine BindingType.shallow_firstTemplate.bind fun _ => BindingType.shallow_checkSoftwareNumeric.bind fun _ => ?_
  split <;> nofun

namespace OperatorFamily

theorem shallow_width {family : OperatorFamily} {k : Kind} : Shallow (family.width k) := by
  unfold width
  split
  · dsimp only
    split <;> nofun
  · nofun

theorem shallow_combine {family : OperatorFamily} {l r : Kind} : Shallow (family.combine l r) := by
  exact shallow_width.bind fun _ => shallow_width.bind fun _ => .check nofun (.check nofun .ok)

end OperatorFamily

theorem ArithmeticOp.shallow_resolve {op : ArithmeticOp} : Shallow (op.resolve l r) := by
  unfold resolve
  split
  · nofun
  · nofun
  · split
    · nofun
    · split <;> nofun
  · exact OperatorFamily.shallow_combine.map

theorem shallow_resolveNegate {o : Operand} : Shallow (resolveNegate o) := by
  unfold resolveNegate
  split
  · nofun
  · refine OperatorFamily.shallow_width.bind fun _ => ?_
    split <;> nofun

theorem shallow_resolveComparison : Shallow (resolveComparison l r) := OperatorFamily.shallow_combine

theorem shallow_combineOperands {family : OperatorFamily} {current : Option Width} :
    Shallow (combineOperands family current operands) := by
  induction operands generalizing current with
  | nil => nofun
  | cons o rest ih =>
    cases o with
    | pointer => nofun
    | value k =>
      cases current with
      | none => exact OperatorFamily.shallow_width.bind fun _ => ih
      | some w => exact OperatorFamily.shallow_combine.bind fun _ => ih

theorem shallow_resolveMath : Shallow (resolveMath name operands) := by
  refine shallow_combineOperands.bind fun _ => ?_
  split
  · nofun
  · split <;> nofun

namespace EffectSet

variable {s : EffectSet} {transforms : List Transform} {context : String}

theorem shallow_parse {names : List String} : Shallow (parse names context) := by
  have hnames {seen : List Effect} : Shallow (parseNames context seen names) := by
    induction names generalizing seen with
    | nil => nofun
    | cons name rest ih =>
      unfold parseNames
      split
      · nofun
      · split
        · nofun
        · exact ih
  exact hnames.map

theorem shallow_explicit? : Shallow (explicit? transforms context) := by
  unfold explicit?
  split
  · exact shallow_parse.map
  · nofun

theorem shallow_active {defaults : EffectSet} :
    Shallow (active transforms defaults context) := shallow_explicit?.bind fun _ => .ok

theorem shallow_inside {home : String} {e : Expr} : Shallow (s.inside home e) := by
  refine shallow_explicit?.bind fun _ => ?_
  split
  · nofun
  · split <;> nofun

theorem shallow_require {name : String} : Shallow (s.require name) := by
  unfold require
  split
  · nofun
  · split <;> nofun

end EffectSet

theorem Builtin.shallow_checkArity {b : Builtin} {count : Nat} : Shallow (b.checkArity name count) := by
  unfold checkArity
  split <;> nofun

theorem CallOf.shallow_argument {i : Nat} : Shallow (c.argument i) := by
  unfold argument
  split <;> nofun

theorem Definition.shallow_fields : Shallow d.fields := by
  unfold fields
  split <;> nofun

theorem Definition.shallow_callParameters : Shallow d.callParameters := by
  unfold callParameters
  split
  · exact shallow_fields
  · nofun

theorem Returns.shallow_branchBody {e : Expr} : Shallow (Returns.branchBody e) := by
  unfold branchBody
  split <;> nofun

namespace Arguments

variable {filled : List (Option Nat)} {labels : List (Option String)} {params : List Expr} {cursor : Nat}
  {callee : String}

theorem shallow_slotFor {label : Option String} : Shallow (slotFor callee params filled cursor label) := by
  unfold slotFor
  split
  · split
    · nofun
    · split <;> nofun
  · dsimp only
    split <;> nofun

theorem shallow_place {i : Nat} : Shallow (place callee params filled cursor i labels) := by
  induction labels generalizing filled cursor i with
  | nil => nofun
  | cons label rest ih => exact shallow_slotFor.bind fun _ => ih

theorem shallow_fillingOf {param : Expr} {slot : Option Nat} : Shallow (fillingOf callee param slot) := by
  unfold fillingOf
  split
  · nofun
  · split <;> nofun

theorem shallow_order {count : Nat} : Shallow (order callee params count labels) := by
  unfold order
  split
  · nofun
  · exact shallow_place.bind fun _ => .mapM (fun _ => shallow_fillingOf) _

end Arguments

namespace Lower

variable {type : BindingType} {c : Call} {k : Kind} {locals : Locals} {builtin x : String}

theorem shallow_collection? {e : Expr} : Shallow (collection? locals e) := by
  unfold collection?
  split
  · nofun
  · exact BindingType.shallow_ofLiteral?
  · nofun

theorem shallow_readable : Shallow (readable locals x) := by
  unfold readable
  split
  · nofun
  · split
    · nofun
    · split <;> nofun

theorem shallow_addressable : Shallow (addressable locals x) := by
  unfold addressable
  split
  · nofun
  · split <;> nofun

theorem shallow_checkSupported {name : String} : Shallow (checkSupported name type) := by
  unfold checkSupported
  split
  · nofun
  · split <;> nofun
  · split <;> nofun
  · split
    · nofun
    · split <;> nofun

theorem shallow_mergeBranches {a b : Operand} : Shallow (mergeBranches a b) := by
  unfold mergeBranches
  split
  · nofun
  · split
    · nofun
    · split
      · nofun
      · split
        · split <;> nofun
        · nofun

theorem shallow_widthOf : Shallow (widthOf k) := by
  unfold widthOf
  split <;> nofun

theorem shallow_literalWidths : Shallow (literalWidths c type) := by
  unfold literalWidths
  split
  · nofun
  · split
    · refine .check nofun ?_
      split <;> nofun
    · nofun

theorem shallow_bindArguments {init : Option Expr} : Shallow (bindArguments locals init) := by
  unfold bindArguments
  split
  · split
    · split <;> nofun
    · nofun
  · nofun

theorem shallow_literalPush {l : Literal} : Shallow (literalPush l) := by
  unfold literalPush
  split
  · split <;> nofun
  all_goals nofun

theorem shallow_mutableLocal : Shallow (mutableLocal locals builtin x) := by
  unfold mutableLocal
  split
  · nofun
  · split <;> nofun

theorem shallow_stepWidth : Shallow (stepWidth builtin k) := by
  unfold stepWidth
  split
  · split <;> nofun
  · nofun

theorem shallow_wordPrint {o : Operand} : Shallow (wordPrint builtin o) := by
  unfold wordPrint
  split <;> nofun

theorem shallow_blockOf : Shallow (blockOf c) := by
  unfold blockOf
  split <;> nofun

end Lower
end FlatCode
