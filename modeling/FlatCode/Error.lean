import FlatCode.Effect.Basic
import FlatCode.Kind

/-! Faults of a program, by cause. The wording of each cause stands in one `message` function. -/

namespace FlatCode

/-- Faults in the shape of a program: what is defined where. -/
inductive StructuralError where
  | duplicateDefinition (path : String)
  | importConflict (name : String)
  | unknownImport (path : String)
  | missingEntry (path : String)
  | templatedEntry (path : String)
  | entryParameter (path : String)
  | entryDefault (path : String)
  | nonBindingParameter (path : String)
  | duplicateParameter (name : String)
  | duplicateBinding (name : String)
  | nonField (path : String)
  | missingReturn (path : String)
  | partialReturn (path : String)
  | unknownExecution (path : String)
  | unknownCall (name : String)
  | bindingAsValue (name : String)
  | namelessBinding
deriving DecidableEq, Repr

def StructuralError.message : StructuralError → String
  | .duplicateDefinition path => "duplicate definition: " ++ path
  | .importConflict name => "import creates name conflict: " ++ name
  | .unknownImport path => "unknown import path: " ++ path
  | .missingEntry path => "missing entry definition " ++ path
  | .templatedEntry path => "entry definition cannot be templated: " ++ path
  | .entryParameter path => "entry definition must take a single array<string> parameter: " ++ path
  | .entryDefault path => "entry parameter does not allow a default value: " ++ path
  | .nonBindingParameter path => "parameters must be bindings: " ++ path
  | .duplicateParameter name => "duplicate parameter: " ++ name
  | .duplicateBinding name => "duplicate binding name: " ++ name
  | .nonField path => "struct definitions may only contain field bindings: " ++ path
  | .missingReturn path => "missing return statement in " ++ path
  | .partialReturn path => "not all control paths return in " ++ path
  | .unknownExecution path => "unknown execution target: " ++ path
  | .unknownCall name => "unknown call target: " ++ name
  | .bindingAsValue name => "binding not allowed in expression context: " ++ name
  | .namelessBinding => "binding requires a name"

/-- Faults in effect annotations, and operations without the effect they need. -/
inductive EffectError where
  | unknownCapability (context name : String)
  | repeatedCapability (context name : String)
  | widened (context : String) (effect : Effect)
  | missing (builtin : String) (effect : Effect)
deriving DecidableEq, Repr

def EffectError.message : EffectError → String
  | .unknownCapability context name => "invalid effects capability on " ++ context ++ ": " ++ name
  | .repeatedCapability context name => "duplicate effects capability on " ++ context ++ ": " ++ name
  | .widened context effect =>
    "execution effects must be a subset of enclosing effects on " ++ context ++ ": " ++ effect.name
  | .missing builtin effect => builtin ++ " requires " ++ effect.name ++ " effect"

inductive OperatorFamily where
  | arithmetic
  | comparison
  | builtin (name : String)
deriving DecidableEq, Repr

inductive ElementRole where
  | element
  | key
  | value
deriving DecidableEq, Repr

inductive ConditionOf where
  | ifBranch
  | whileLoop
  | forLoop
deriving DecidableEq, Repr

/-- Faults in the kinds of values. -/
inductive TypeError where
  | softwareNumeric (name : String)
  | unsupportedBindingType (text : String)
  | missingTemplate (name : String)
  | mapTypes
  | untypedReturn (path : String)
  | unsupportedReturn (path : String)
  | nonNumeric (family : OperatorFamily)
  | mixedSign (family : OperatorFamily)
  | mixedFloat (family : OperatorFamily)
  | pointerPair
  | pointerOnRight
  | pointerOffset
  | negateUnsigned
  | floatRequired (name : String)
  | booleanOperand
  | convertTarget (name : String)
  | convertOperand
  | locationTarget
  | dereferenceTarget
  | unknownTarget (builtin name : String)
  | immutableTarget (builtin name : String)
  | targetShape (builtin : String)
  | stepShape (builtin : String)
  | stepOperand (builtin : String)
  | assignMismatch
  | bindingMismatch (name : String)
  | untypedBinding (name : String)
  | voidReturnsValue
  | returnMismatch (path : String)
  | returnWithoutValue
  | repeatCount
  | loopCount
  | condition (construct : ConditionOf)
  | printPointer (builtin : String)
  | branchMismatch
  | valuelessBlock
  | unknownName (name : String)
  | noValue (builtin : String)
  | notIndexable (builtin : String)
  | keyMismatch (builtin : String)
  | indexKind (builtin : String)
  | elementMismatch (builtin : String) (role : ElementRole)
  | argumentMismatch (path parameter : String)
  | voidCall (path : String)
  | notACollection (name : String)
deriving DecidableEq, Repr

def OperatorFamily.nonNumeric : OperatorFamily → String
  | .arithmetic => "arithmetic operators require numeric operands"
  | .comparison => "comparisons require numeric or bool operands"
  | .builtin name => name ++ " requires numeric operands"

def OperatorFamily.mixed (what : String) : OperatorFamily → String
  | .arithmetic => "arithmetic operators do not support mixed " ++ what ++ " operands"
  | .comparison => "comparisons do not support mixed " ++ what ++ " operands"
  | .builtin name => name ++ " does not support mixed " ++ what ++ " operands"

def ElementRole.name : ElementRole → String
  | .element => "element"
  | .key => "key"
  | .value => "value"

def ConditionOf.name : ConditionOf → String
  | .ifBranch => "if"
  | .whileLoop => "while"
  | .forLoop => "for"

def TypeError.message : TypeError → String
  | .softwareNumeric name => "software numeric types are not supported yet: " ++ name
  | .unsupportedBindingType text => "unsupported binding type: " ++ text
  | .missingTemplate name => name ++ " requires a template argument"
  | .mapTypes => "map requires key and value types"
  | .untypedReturn path => "return transform requires a type on " ++ path
  | .unsupportedReturn path => "unsupported return type on " ++ path
  | .nonNumeric family => family.nonNumeric
  | .mixedSign family => family.mixed "signed/unsigned"
  | .mixedFloat family => family.mixed "int/float"
  | .pointerPair => "pointer arithmetic does not support pointer + pointer"
  | .pointerOnRight => "pointer arithmetic requires pointer on the left"
  | .pointerOffset => "pointer arithmetic requires an integer offset"
  | .negateUnsigned => "negate does not support unsigned operands"
  | .floatRequired name => name ++ " requires float argument"
  | .booleanOperand => "boolean operators require bool operands"
  | .convertTarget name => "unsupported convert target: " ++ name
  | .convertOperand => "convert requires numeric or bool operand"
  | .locationTarget => "location requires a local binding"
  | .dereferenceTarget => "dereference requires a pointer or reference"
  | .unknownTarget builtin name => builtin ++ " target must be a known binding: " ++ name
  | .immutableTarget builtin name => builtin ++ " target must be mutable: " ++ name
  | .targetShape builtin => builtin ++ " target must be a binding or dereference"
  | .stepShape builtin => builtin ++ " target must be a mutable binding"
  | .stepOperand builtin => builtin ++ " requires numeric operand"
  | .assignMismatch => "assign value type mismatch"
  | .bindingMismatch name => "binding initializer type mismatch: " ++ name
  | .untypedBinding name => "binding requires a type or initializer: " ++ name
  | .voidReturnsValue => "return value not allowed for void definition"
  | .returnMismatch path => "return type mismatch in " ++ path
  | .returnWithoutValue => "return requires exactly one argument"
  | .repeatCount => "repeat count requires integer or bool"
  | .loopCount => "loop count requires integer"
  | .condition construct => construct.name ++ " condition requires bool"
  | .printPointer builtin => builtin ++ " does not support pointer values"
  | .branchMismatch => "if expression branches must produce compatible values"
  | .valuelessBlock => "block expression requires a value"
  | .unknownName name => "unknown identifier: " ++ name
  | .noValue builtin => builtin ++ " does not produce a value"
  | .notIndexable builtin => builtin ++ " requires an array argument"
  | .keyMismatch builtin => builtin ++ " key type mismatch"
  | .indexKind builtin => builtin ++ " index requires an integer"
  | .elementMismatch builtin role => builtin ++ " literal " ++ role.name ++ " type mismatch"
  | .argumentMismatch path parameter => "argument type mismatch for " ++ path ++ " parameter " ++ parameter
  | .voidCall path => "void call not allowed in expression context: " ++ path
  | .notACollection name => "native backend requires a collection value: " ++ name

inductive CallShapeError where
  | duplicateLabel (name : String)
  | unknownLabel (name : String)
  | labelTaken (name : String)
  | argumentCount (path : String)
  | builtinArity (builtin : String)
  | labelledBuiltin
  | blockOnCall (name : String)
  | blockArguments
  | missingBlock (builtin : String)
  | branchEnvelope
  | oddMap
  | missingReceiver (name : String)
deriving DecidableEq, Repr

def CallShapeError.message : CallShapeError → String
  | .duplicateLabel name => "duplicate named argument: " ++ name
  | .unknownLabel name => "unknown named argument: " ++ name
  | .labelTaken name => "named argument duplicates parameter: " ++ name
  | .argumentCount path => "argument count mismatch for " ++ path
  | .builtinArity builtin => "argument count mismatch for builtin " ++ builtin
  | .labelledBuiltin => "named arguments not supported for builtin calls"
  | .blockOnCall name => "block arguments are only supported on control-flow builtins: " ++ name
  | .blockArguments => "block does not accept arguments"
  | .missingBlock builtin => builtin ++ " requires a block"
  | .branchEnvelope => "if branches require block envelopes"
  | .oddMap => "map literal requires an even number of arguments"
  | .missingReceiver name => "method call requires a receiver: " ++ name

/-- What the code generator cannot express. -/
inductive LoweringError where
  | recursiveCall (path : String)
  | blockOnCall
  | voidCall (path : String)
  | missingReturn
  | unknownName (name : String)
  | collectionAsValue (type name : String)
  | arrayAsValue (name : String)
  | literalRange
  | stringAsValue
  | unsupportedKind (kind : Kind)
  | collectionLiteral (builtin : String)
  | heap (builtin : String)
  | pathspace (builtin : String)
  | stringAddress
  | stringAssignment
  | collectionElement (name : String)
  | untypedBinding (name : String)
  | uninferredBinding (name : String)
  | argumentArray
  | collectionWithoutValue (name : String)
  | stringWithoutValue (name : String)
  | unknownString (name : String)
  | stringSource
  | printKind (kind : Kind)
  | collectionExpected
  | literalElement (builtin : String)
  | mapKey
  | lookupKey
  | argumentString (builtin : String)
  | nestedTooDeep
  | capacity
deriving DecidableEq, Repr

def LoweringError.message : LoweringError → String
  | .recursiveCall path => "native backend does not support recursive calls: " ++ path
  | .blockOnCall => "native backend does not support block arguments on calls"
  | .voidCall path => "void call not allowed in expression context: " ++ path
  | .missingReturn => "native backend requires an explicit return statement"
  | .unknownName name => "native backend does not know identifier: " ++ name
  | .collectionAsValue type name =>
    "native backend only reads " ++ type ++ " values through count and at: " ++ name
  | .arrayAsValue name => "native backend does not support array values: " ++ name
  | .literalRange => "i32 literal out of range for native backend"
  | .stringAsValue => "native backend only supports string literals in print calls and bindings"
  | .unsupportedKind kind => "native backend does not support " ++ kind.typeName ++ " values here"
  | .collectionLiteral builtin =>
    "native backend only supports " ++ builtin ++ " literals in bindings, arguments, count and at"
  | .heap builtin => "native backend does not support heap allocation: " ++ builtin
  | .pathspace builtin => "native backend does not support pathspace operations: " ++ builtin
  | .stringAddress => "native backend does not support string pointers or references"
  | .stringAssignment => "native backend does not support string assignment"
  | .collectionElement name => "native backend only supports numeric/bool collection elements: " ++ name
  | .untypedBinding name => "binding requires a type or initializer: " ++ name
  | .uninferredBinding name => "native backend cannot infer binding type: " ++ name
  | .argumentArray => "native backend only supports array<string> entry arguments"
  | .collectionWithoutValue name => "native backend requires an initializer for collection binding: " ++ name
  | .stringWithoutValue name => "native backend requires an initializer for string binding: " ++ name
  | .unknownString name => "native backend does not know string binding: " ++ name
  | .stringSource =>
    "native backend only supports string literals, string bindings and entry arguments as strings"
  | .printKind kind => "native backend cannot print " ++ kind.typeName ++ " values"
  | .collectionExpected => "native backend requires a collection binding or literal"
  | .literalElement builtin => "native backend only supports numeric/bool " ++ builtin ++ " literals"
  | .mapKey => "native backend only supports numeric/bool map keys"
  | .lookupKey => "native backend requires map lookup key type to match map key type"
  | .argumentString builtin => "native backend does not support " ++ builtin ++ " on argument strings"
  | .nestedTooDeep => "native backend does not support this depth of nested expansions"
  | .capacity => "capacity overflow"

/-- A fault of a program, in the first place where one is found. -/
inductive Error where
  | structural (cause : StructuralError)
  | effect (cause : EffectError)
  | type (cause : TypeError)
  | callShape (cause : CallShapeError)
  | lowering (cause : LoweringError)
deriving DecidableEq, Repr

def Error.message : Error → String
  | .structural cause => cause.message
  | .effect cause => cause.message
  | .type cause => cause.message
  | .callShape cause => cause.message
  | .lowering cause => cause.message

/-- The answer of a check or of lowering that is not taken deep enough. It is no fault of the program: taken deeper, they
    may accept it or find a fault in it. -/
abbrev Error.tooDeep : Error := .lowering .nestedTooDeep

end FlatCode
