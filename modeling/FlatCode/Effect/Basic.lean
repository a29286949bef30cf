/-! The closed vocabulary of effects. -/

namespace FlatCode

inductive Effect where
  | ioOut
  | ioErr
  | heapAlloc
  | pathspaceNotify
  | pathspaceInsert
  | pathspaceTake
  | fileWrite
deriving DecidableEq, Repr

namespace Effect

def all : List Effect :=
  [.ioOut, .ioErr, .heapAlloc, .pathspaceNotify, .pathspaceInsert, .pathspaceTake, .fileWrite]

def name : Effect → String
  | .ioOut => "io_out"
  | .ioErr => "io_err"
  | .heapAlloc => "heap_alloc"
  | .pathspaceNotify => "pathspace_notify"
  | .pathspaceInsert => "pathspace_insert"
  | .pathspaceTake => "pathspace_take"
  | .fileWrite => "file_write"

def ofName? (s : String) : Option Effect := all.find? (·.name == s)

def requiredBy? : String → Option Effect
  | "print" => some .ioOut
  | "print_line" => some .ioOut
  | "print_error" => some .ioErr
  | "print_line_error" => some .ioErr
  | "vector" => some .heapAlloc
  | "map" => some .heapAlloc
  | "push" => some .heapAlloc
  | "reserve" => some .heapAlloc
  | "notify" => some .pathspaceNotify
  | "insert" => some .pathspaceInsert
  | "take" => some .pathspaceTake
  | _ => none

end Effect
end FlatCode
