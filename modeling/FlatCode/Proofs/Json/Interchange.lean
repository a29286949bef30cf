import FlatCode.Proofs.Json.Library

/-! The reader and the printer of programs make up a library that works as documented. -/

namespace FlatCode

namespace Json

variable {fields : List (String × Json)}

def kindToJson : Literal ⊕ String ⊕ Call → Json
  | .inl l => record [("Literal", l.toJson)]
  | .inr (.inl x) => record [("Name", str x)]
  | .inr (.inr c) => record [("Call", Call.toJson c)]

def library : Library where
  limit := Program.nestingLimit
  print := pretty
  parse text := (Json.parse text).toOption
  string := ⟨str, fun _ => string?⟩
  bool := ⟨.bool, fun _ => bool?⟩
  int64 := ⟨fun n => ofInt n.toInt, fun _ => int64?⟩
  uint64 := ⟨fun n => ofInt n.toNat, fun _ => uint64?⟩
  width := ⟨fun w => str w.caseName, Literal.intWidth?⟩
  list C := ⟨fun l => .array (l.map C.write), fun room => list? room C.read⟩
  option C := ⟨ofOption C.write, fun room => nullable (C.read room)⟩
  transform := ⟨Transform.toJson, Transform.ofJson?⟩
  sized := ⟨fun x => record [("value", ofInt x.1.toInt), ("width", str x.2.caseName)],
    fun room => Literal.sized? room int64? Literal.intWidth?⟩
  literal := ⟨Literal.toJson, Literal.ofJson?⟩
  call := ⟨Call.toJson, Call.ofJson?⟩
  kind := ⟨kindToJson, Expr.kindOfJson?⟩
  expr := ⟨Expr.toJson, Expr.ofJson?⟩
  definition := ⟨Definition.toJson, Definition.ofJson?⟩
  execution := ⟨Execution.toJson, Execution.ofJson?⟩
  program := ⟨Program.toJson, Program.ofJson?⟩

end Json

open Json

namespace Json

end Json

theorem library_runs : Program.parse? = library.ofText? ∧ Program.render = library.toText := ⟨rfl, rfl⟩

end FlatCode
