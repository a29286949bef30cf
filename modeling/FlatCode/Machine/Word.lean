/-! The words of the machine and the numbers they stand for. A 32-bit integer is kept as its sign extension, a
    single-precision number as its bits with zeros above. -/

namespace FlatCode

abbrev Word := UInt64

namespace Word

def int32 (w : Word) : Int32 := w.toUInt32.toInt32

def ofInt32 (n : Int32) : Word := n.toInt64.toUInt64

def int64 (w : Word) : Int64 := w.toInt64

def ofInt64 (n : Int64) : Word := n.toUInt64

def float32 (w : Word) : Float32 := Float32.ofBits w.toUInt32

def ofFloat32 (x : Float32) : Word := x.toBits.toUInt64

def float64 (w : Word) : Float := Float.ofBits w

def ofFloat64 (x : Float) : Word := x.toBits

def ofBool (b : Bool) : Word := if b then 1 else 0

end Word
end FlatCode
