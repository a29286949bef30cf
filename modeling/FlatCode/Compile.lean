import FlatCode.Check.Program
import FlatCode.Lower.Program

/-! Compiling: checking a program, then lowering it. -/

namespace FlatCode

/-- Where a program starts, the effects of definitions without any of their own, and whether it is checked. -/
structure CompileOptions where
  entry : String := "/main"
  defaults : List String := ["io_out", "io_err"]
  entryDefaults : List String := ["io_out", "io_err"]
  checked : Bool := true

def Program.compile (o : CompileOptions) (p : Program) : Except Error CodeModule := do
  if o.checked then p.check o.entry o.defaults o.entryDefaults
  p.lower o.entry o.defaults o.entryDefaults

end FlatCode
