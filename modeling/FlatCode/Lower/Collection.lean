import FlatCode.Lower.Emitter

/-! Collections in slots. A literal takes slots in a row and stands for the address of the first:

      array    count, elements
      vector   count, capacity, elements
      map      count, then keys and values in turn -/

namespace FlatCode.Lower

def headerSlots (type : BindingType) : Nat := if type.shape = .vector then 2 else 1

def sameLayout (a b : BindingType) : Bool :=
  a.shape == b.shape && a.kind.width? == b.kind.width? && (a.shape != .map || a.key.width? == b.key.width?)

section
variable (E : Emitter) (ctx : Context) (locals : Locals)

/-- The widths of the elements of a literal at even and at odd places. -/
def literalWidths (c : Call) (type : BindingType) : Except Error (Width × Width) := do
  match type.kind.width? with
  | none => throw (.lowering (.literalElement c.name))
  | some value =>
    if type.shape = .map then
      if c.args.length % 2 != 0 then throw (.callShape .oddMap)
      match type.key.width? with
      | none => throw (.lowering .mapKey)
      | some key => return (key, value)
    else return (value, value)

def emitElements (builtin : String) (w next : Width) (slot : Nat) : List Expr → Lowering Unit
  | [] => return
  | e :: rest => do
    let operand ← E.expr ctx locals e
    if operand.isPointer then throw (.type (.elementMismatch builtin .element))
    coerce operand.kind w.kind
    store slot
    emitElements builtin next w (slot + 1) rest

def emitLiteral (c : Call) (type : BindingType) : Lowering Unit := do
  ctx.effects.require c.name
  let (even, odd) ← literalWidths c type
  let header := headerSlots type
  let count := if type.shape = .map then c.args.length / 2 else c.args.length
  let base ← newSlots (header + c.args.length)
  emitWith .pushI32 (UInt64.ofNat count)
  store base
  if type.shape = .vector then
    emitWith .pushI32 (UInt64.ofNat count)
    store (base + 1)
  emitElements E ctx locals c.name even odd (base + header) c.args
  emitWith .addressOfLocal (UInt64.ofNat base)

def emitCollection (e : Expr) : Lowering BindingType :=
  match e with
  | .name _ x =>
    match locals.lookup x with
    | none => throw (.lowering (.unknownName x))
    | some l =>
      match l.collection? with
      | none => throw (.type (.notACollection x))
      | some type => do
        load l.slot
        return type
  | .call _ c => do
    match ← BindingType.ofLiteral? [] c with
    | none => throw (.lowering .collectionExpected)
    | some type =>
      emitLiteral E (← ctx.inside e) locals c type
      return type
  | .literal .. => throw (.lowering .collectionExpected)

/-- The address `base + (index * scale + offset) * 16` of a slot of a collection. -/
def emitAddress (base index : Nat) (scale offset : Int64) : Lowering Unit := do
  load base
  load index
  pushInt .i64 scale
  arithmetic .multiply .i64
  pushInt .i64 offset
  arithmetic .plus .i64
  pushInt .i64 16
  arithmetic .multiply .i64
  arithmetic .plus .i64

def indexWidth (builtin : String) (e : Expr) : Lowering Width := do
  let operand ← ctx.operand locals e
  if operand.isPointer || !operand.kind.isInteger then throw (.type (.indexKind builtin))
  widthOf operand.kind

def spillIndex (builtin : String) (e : Expr) : Lowering (Nat × Width) := do
  let w ← indexWidth ctx locals builtin e
  let slot ← newSlot
  E.exprAt ctx locals e w
  store slot
  return (slot, w)

/-- Fails with a message unless the index in a slot is at least zero and less than what `bound` pushes. -/
def checkRange (w : Width) (index : Nat) (bound : Lowering Unit) (message : String) : Lowering Unit := do
  failIfNegative w index message
  load index
  bound
  compare .greaterEqual w
  whenNonzero (fail message)

def emitArgumentIndex (c : Call) (checked : Bool) : Lowering Unit :=
  match c.args with
  | [target, position] => do
    if !isArguments locals target then throw (.type (.notIndexable c.name))
    if checked then
      let (index, w) ← spillIndex E ctx locals c.name position
      checkRange w index (emit .pushArgc) "array index out of bounds"
      load index
    else
      let w ← indexWidth ctx locals c.name position
      E.exprAt ctx locals position w
  | _ => throw (.callShape (.builtinArity c.name))

def emitElement (builtin : String) (type : BindingType) (target position : Expr) (checked : Bool) :
    Lowering Unit := do
  let base ← newSlot
  let _ ← emitCollection E ctx locals target
  store base
  let (index, w) ← spillIndex E ctx locals builtin position
  if checked then
    let count : Lowering Unit := do
      load base
      emit .loadIndirect
      coerce .int32 w.kind
    checkRange w index count "array index out of bounds"
  emitAddress base index 1 (Int64.ofNat (headerSlots type))
  emit .loadIndirect

/-- The width of the keys of a map, which is that of the key that is looked up. -/
def lookupWidth (type : BindingType) (key : Expr) : Lowering Width := do
  let w ← widthOf type.key
  let operand ← ctx.operand locals key
  if operand.isPointer || operand.kind.width? != some w then throw (.lowering .lookupKey)
  return w

def emitEntriesLeft (count entry : Nat) : Lowering Unit := do
  load entry
  load count
  emit .cmpLtI32

def emitKeyTest (w : Width) (base key entry : Nat) : Lowering Unit := do
  emitAddress base entry 2 1
  emit .loadIndirect
  load key
  compare .equal w

def nextEntry (entry : Nat) : Lowering Unit := do
  load entry
  emitWith .pushI32 1
  emit .addI32
  store entry

/-- Goes on to the first entry with the key that is looked up; without one a checked search fails. -/
def emitSearch (w : Width) (base key count entry : Nat) (checked : Bool) : Lowering Unit := do
  let found ← loop (emitEntriesLeft count entry) fun _ => do
    emitKeyTest w base key entry
    let found ← whenNonzero (openJump .jump)
    nextEntry entry
    return found
  if checked then fail "map key not found"
  closeJump found

/-- Leaves the value of the first entry with the given key; without one a checked lookup fails. -/
def emitLookup (type : BindingType) (target position : Expr) (checked : Bool) : Lowering Unit := do
  let w ← lookupWidth ctx locals type position
  let base ← newSlot
  let _ ← emitCollection E ctx locals target
  store base
  let key ← newSlot
  E.exprAt ctx locals position w
  store key
  let count ← newSlot
  load base
  emit .loadIndirect
  store count
  let entry ← newSlot
  emitWith .pushI32 0
  store entry
  emitSearch w base key count entry checked
  emitAddress base entry 2 2
  emit .loadIndirect

/-- The index in the table and the length in bytes of a string that is known when lowering. -/
def knownText? (builtin : String) (e : Expr) : Lowering (Option (Nat × Nat)) :=
  match e with
  | .literal _ (.string text) => do
    let index ← internText text
    return some (index, text.utf8ByteSize)
  | .name _ x =>
    match locals.lookup x with
    | none => return none
    | some l =>
      if l.type.kind = .string then
        match l.text with
        | .none => return none
        | .table index => do
          let strings := (← get).strings
          return some (index, (strings.getD index "").utf8ByteSize)
        | .argument _ => throw (.lowering (.argumentString builtin))
      else return none
  | _ => return none

def emitByte (builtin : String) (index length : Nat) (position : Expr) (checked : Bool) : Lowering Unit := do
  let (slot, w) ← spillIndex E ctx locals builtin position
  if checked then checkRange w slot (pushInt w (Int64.ofNat length)) "string index out of bounds"
  load slot
  emitWith .loadStringByte (UInt64.ofNat index)

def emitCount (builtin : String) (target : Expr) : Lowering Operand := do
  if isArguments locals target then emit .pushArgc
  else
    match ← collection? locals target with
    | some _ =>
      let _ ← emitCollection E ctx locals target
      emit .loadIndirect
    | none =>
      match ← knownText? locals builtin target with
      | some (_, length) => emitWith .pushI32 (UInt64.ofNat length)
      | none => throw (.type (.notIndexable builtin))
  return .value .int32

def emitIndex (c : Call) (target position : Expr) (checked : Bool) : Lowering Operand := do
  if isArguments locals target then
    emitArgumentIndex E ctx locals c checked
    return .value .string
  else
    match ← collection? locals target with
    | some type =>
      if type.shape = .map then emitLookup E ctx locals type target position checked
      else emitElement E ctx locals c.name type target position checked
      return .value type.kind
    | none =>
      match ← knownText? locals c.name target with
      | some (index, length) =>
        emitByte E ctx locals c.name index length position checked
        return .value .int32
      | none => throw (.type (.notIndexable c.name))

end
end FlatCode.Lower
