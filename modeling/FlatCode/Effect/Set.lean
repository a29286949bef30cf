import FlatCode.Error

/-! Sets of effects and the rules for annotations: the last `effects(...)` transform replaces the inherited set,
    and inside a definition it may only narrow it. -/

namespace FlatCode

/-- A set of effects, as the list of its members in the order of the vocabulary. -/
structure EffectSet where
  members : List Effect
deriving DecidableEq, Repr

namespace EffectSet

def empty : EffectSet := ⟨[]⟩

def ofList (l : List Effect) : EffectSet := ⟨Effect.all.filter (l.contains ·)⟩

def contains (s : EffectSet) (e : Effect) : Bool := s.members.contains e

def firstOutside? (s outer : EffectSet) : Option Effect := s.members.find? fun e => !outer.contains e

/-- The effects that the names spell, after those of `seen`; each known and at most once. -/
def parseNames (context : String) (seen : List Effect) : List String → Except Error (List Effect)
  | [] => .ok seen
  | name :: rest =>
    match Effect.ofName? name with
    | none => .error (.effect (.unknownCapability context name))
    | some e =>
      if seen.contains e then .error (.effect (.repeatedCapability context name))
      else parseNames context (e :: seen) rest

/-- The set that a list of names spells; `context` is named in its faults. -/
def parse (names : List String) (context : String) : Except Error EffectSet :=
  (parseNames context [] names).map ofList

/-- The set of the last `effects(...)` transform. -/
def explicit? (transforms : List Transform) (context : String) : Except Error (Option EffectSet) :=
  match transforms.reverse.find? (·.name == "effects") with
  | some t => (parse t.arguments context).map some
  | none => .ok none

def active (transforms : List Transform) (defaults : EffectSet) (context : String) : Except Error EffectSet := do
  return (← explicit? transforms context).getD defaults

/-- The set in force in an annotated expression; it must not widen the enclosing one. -/
def nested (transforms : List Transform) (enclosing : EffectSet) (context : String) : Except Error EffectSet := do
  match ← explicit? transforms context with
  | none => return enclosing
  | some s =>
    match s.firstOutside? enclosing with
    | some extra => throw (.effect (.widened context extra))
    | none => return s

/-- The set in force inside an expression of the definition at `home`; faults name the call, if it is one. -/
def inside (s : EffectSet) (home : String) (e : Expr) : Except Error EffectSet :=
  let context := match e with
    | .call _ c => c.name
    | _ => home
  nested e.transforms s context

def require (s : EffectSet) (name : String) : Except Error Unit :=
  match Effect.requiredBy? name with
  | none => .ok ()
  | some e => if s.contains e then .ok () else .error (.effect (.missing name e))

end EffectSet
end FlatCode
