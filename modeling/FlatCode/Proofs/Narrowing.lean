import FlatCode.Compile
import FlatCode.Program.Build
import FlatCode.Proofs.Lockstep.Collection
import FlatCode.Proofs.Source.Selection

/-! Integers in places of another width. No instruction is emitted where an integer of one width is used at another,
    so a place that is declared as a 32-bit integer takes a word as it is, and gives it back as it is. Main result:
    whatever way an integer takes into such a place and out of it, all of its 64 bits are seen where it is used at 64
    bits (`integer_words_pass_whole`), and they are the sign extension of the low half only if it was in range. -/

namespace FlatCode

namespace Machine
open Source (word truth holds Scalar)

def State.slot (m : State) (k : Nat) : Word := m.slots.getD (UInt64.ofNat k).toNat 0

def State.HasSlot (m : State) (k : Nat) : Prop := (UInt64.ofNat k).toNat < m.slots.size

def State.stored (m : State) (k : Nat) (w : Word) (rest : List Word) : State :=
  { m with stack := rest, slots := m.slots.setIfInBounds (UInt64.ofNat k).toNat w }

theorem State.slot_stored {m : State} {k : Nat} {w : Word} {rest : List Word} (hk : m.HasSlot k) :
    (m.stored k w rest).slot k = w := by
  rw [slot, stored, Array.getD_eq_getD_getElem?, Array.getElem?_setIfInBounds_self_of_lt hk, Option.getD_some]

def State.read (m : State) (address : Word) : Flow :=
  (m.atAddress address fun k => .continue (m.push (m.slots.getD k 0))).flow

def State.At (m : State) (address w : Word) : Prop :=
  address % slotStride = 0 ∧ (address / slotStride).toNat < m.slots.size ∧
    m.slots.getD (address / slotStride).toNat 0 = w

/-- A run of a piece comes to its end in the state `m`, wherever that is. -/
def Flow.Reaches (f : Flow) (m : State) : Prop := ∃ pc, f = .next { m with pc }

variable {op : ComparisonOp} {i j : Int}

section
variable {env : Env} {fuel k : Nat} {m m' : State} {w : Word} {rest : List Word}

theorem Flow.Reaches.andThen {f : Flow} {g : State → Flow} (hf : f.Reaches m)
    (hg : ∀ pc, (g { m with pc }).Reaches m') : (f.andThen g).Reaches m' := by
  obtain ⟨pc, rfl⟩ := hf
  exact hg pc

theorem exec_op {i : Instruction} {plain : i.op.isJump = false} :
    exec env fuel (.op i plain) m = (perform env i.imm { m with pc := m.pc + 1 } i.op.operation).flow := rfl

theorem reaches_load {plain} : (exec env fuel (.op { op := .loadLocal, imm := UInt64.ofNat k } plain) m).Reaches
    { m with stack := m.slot k :: m.stack } := ⟨_, rfl⟩

theorem reaches_store {plain} (hm : m.stack = w :: rest) :
    (exec env fuel (.op { op := .storeLocal, imm := UInt64.ofNat k } plain) m).Reaches (m.stored k w rest) := by
  refine ⟨m.pc + 1, ?_⟩
  simp only [exec_op, Opcode.operation, perform, State.pop, hm]
  rfl

theorem reaches_dup {imm : UInt64} {plain} (hm : m.stack = w :: rest) :
    (exec env fuel (.op { op := .dup, imm } plain) m).Reaches { m with stack := w :: w :: rest } := by
  refine ⟨m.pc + 1, ?_⟩
  simp only [exec_op, Opcode.operation, perform, State.pop, hm]
  rfl

theorem exec_loadIndirect {imm : UInt64} {plain} (hm : m.stack = w :: rest) :
    exec env fuel (.op { op := .loadIndirect, imm } plain) m = { m with pc := m.pc + 1, stack := rest }.read w := by
  simp only [exec_op, Opcode.operation, perform, State.pop, hm]
  rfl

theorem reaches_loadIndirect {address : Word} {imm : UInt64} {plain} (hm : m.stack = address :: rest)
    (h : m.At address w) :
    (exec env fuel (.op { op := .loadIndirect, imm } plain) m).Reaches { m with stack := w :: rest } := by
  obtain ⟨haligned, hlt, rfl⟩ := h
  rw [exec_loadIndirect hm, State.read, State.atAddress, if_pos ⟨haligned, hlt⟩]
  exact ⟨m.pc + 1, rfl⟩

theorem reaches_guard {p : Piece} (hm : m.stack = 0 :: rest) :
    (exec env fuel (.guard p) m).Reaches { m with stack := rest } := by
  refine ⟨m.pc + p.size + 1, ?_⟩
  simp only [exec, Flow.choose, hm, if_true]

/-- The low half of a word stands for the number that it wraps around to. -/
theorem int32_wrap (n : Int) : (word (Scalar.i32.wrap n)).int32 = (word n).int32 := by
  rw [Source.int32_word, Source.int32_word]
  apply Int32.toBitVec.inj
  apply BitVec.eq_of_toInt_eq
  show (BitVec.ofInt 32 (n.bmod (2 ^ 32))).toInt = (BitVec.ofInt 32 n).toInt
  rw [BitVec.toInt_ofInt, BitVec.toInt_ofInt, Int.bmod_bmod]

/-- A comparison at 32 bits looks at the low halves of both words. -/
theorem perform_compare_low {imm : UInt64} (hm : m.stack = word j :: word i :: rest) :
    perform env imm m (Opcode.compare op .i32).operation = .continue
      { m with stack := word (truth (holds op (Scalar.i32.wrap i) (Scalar.i32.wrap j))) :: rest } := by
  have hlow : perform env imm { m with stack := word (Scalar.i32.wrap j) :: word (Scalar.i32.wrap i) :: rest }
      (Opcode.compare op .i32).operation = _ :=
    Source.perform_compare (k := .i32) op nofun (Scalar.holds_wrap .i32 i) (Scalar.holds_wrap .i32 j) rfl
  rw [← hlow]
  cases op <;>
    simp only [Opcode.compare, Opcode.operation, Operation.testInt32, perform, State.pop, hm, State.push, int32_wrap]

theorem reaches_compare {imm : UInt64} {plain} (hm : m.stack = word j :: word i :: rest) :
    (exec env fuel (.op { op := Opcode.compare op .i32, imm } plain) m).Reaches
      { m with stack := word (truth (holds op (Scalar.i32.wrap i) (Scalar.i32.wrap j))) :: rest } :=
  ⟨m.pc + 1, congrArg Outcome.flow (perform_compare_low (m := { m with pc := m.pc + 1 }) hm)⟩

end
end Machine

namespace Lower
open Stateful
open Machine (Flow exec)
open Source (word truth holds Scalar)

/-- From `s` to `t` the code of `e` is laid out, and then, if that leaves an integer, code that leads from every state
    of the machine to where `Q` says. -/
def Takes (E : Emitter) (ctx : Context) (locals : Locals) (e : Expr) (s t : State) (Q : Machine.State → Flow → Prop) :
    Prop :=
  ∃ s' operand u, Extends s .nop s' ∧ E.expr ctx locals e s' = .ok (operand, u) ∧ (operand.kind.isInteger = true →
    ∃ q, Extends u q t ∧ ∀ env fuel m, Q m (exec env fuel q m))

/-- The same for two operands, the second of which is lowered behind the first. -/
def TakesBoth (E : Emitter) (ctx : Context) (locals : Locals) (a b : Expr) (s t : State)
    (Q : Machine.State → Flow → Prop) : Prop :=
  ∃ s' x u, Extends s .nop s' ∧ E.expr ctx locals a s' = .ok (x, u) ∧ (x.kind.isInteger = true →
    Takes E ctx.behind locals b u t Q)

/-- Where integers are lowered by the emitter `E`, they pass whole: into places of any integer kind, out of them, and to
    where they are used at 64 bits. -/
structure PassesWhole (E : Emitter) : Prop where
  /-- A conversion to an integer leaves the word that is converted. -/
  conversion : ∀ {ctx : Context} {locals : Locals} {c : Call} {e : Expr} {k : Kind} {s t : State},
    emitConvert E ctx locals c e s = .ok (.value k, t) → k.isInteger = true →
    Takes E ctx locals e s t fun m f => f = .next m
  /-- The slot of a binding or a parameter takes the word of its initial value. -/
  declaration : ∀ {ctx : Context} {site : Site} {locals : Locals} {d e : Expr} {parameter : Bool} {x : String}
    {l : Local} {s t : State}, bindLocal E ctx site locals d (some e) parameter s = .ok ((x, l), t) →
    l.type.shape = .value → l.type.kind.isInteger = true → Takes E ctx locals e s t fun m f =>
      ∀ w rest, m.stack = w :: rest → f.Reaches (m.stored l.slot w rest)
  /-- The slot of a binding takes the word that is assigned, which is left on the stack as well. -/
  assignment : ∀ {ctx : Context} {locals : Locals} {ts : List Transform} {x : String} {l : Local} {e : Expr}
    {s t : State} {operand : Operand}, emitAssign E ctx locals (.name ts x) e s = .ok (operand, t) →
    locals.lookup x = some l → l.type.shape = .value → l.type.kind.isInteger = true →
    operand = .value l.type.kind ∧ Takes E ctx locals e s t fun m f =>
      ∀ w rest, m.stack = w :: rest → f.Reaches (m.stored l.slot w (w :: rest))
  /-- A `return` from an expansion puts the word in the slot of the result and leaves. -/
  result : ∀ {ctx : Context} {locals : Locals} {returns : ReturnInfo} {r : Nat} {e : Expr} {s t : State},
    returnToEnd E ctx locals returns (some r) (some e) s = .ok ((), t) → returns.kind.isInteger = true →
    Takes E ctx locals e s t fun m f =>
      ∀ w rest, m.stack = w :: rest → ∃ pc, f = .exit ctx.waiting { m.stored r w rest with pc }
  /-- A slot holds the word that it has taken. -/
  slot : ∀ {m : Machine.State} {k : Nat} {w : Word} {rest : List Word}, m.HasSlot k → (m.stored k w rest).slot k = w
  /-- A name leaves the word in its slot. -/
  name : ∀ {l : Local} {s t : State} {operand : Operand}, emitLocal l s = .ok (operand, t) → l.type.shape = .value →
    operand = .value l.type.kind ∧ ∃ q, Extends s q t ∧
      ∀ env fuel m, (exec env fuel q m).Reaches { m with stack := m.slot l.slot :: m.stack }
  /-- A call goes on where the `return`s of its body lead, and leaves the word in the slot of the result. -/
  call : ∀ {ctx : Context} {locals : Locals} {c : Call} {callee : Definition} {k : Kind} {s t : State},
    expand E ctx locals c callee true s = .ok (some k, t) → callee.isStruct = false →
    ∃ effects returns r inner s₁ exits s₂,
      emitBody E (bodyContext ctx callee effects returns (some r)) inner callee.body s₁ = .ok (exits, s₂) ∧
      k = (if returns.kind = .unknown then .int32 else returns.kind) ∧
      (∀ x ∈ exits, ∀ i, s₂.code[x.position]? = some i → i.imm = UInt64.ofNat s₂.code.size) ∧
      ∃ q, t.code.toList = s₂.code.toList ++ q.code 0 s₂.code.size ∧
        ∀ env fuel m, (exec env fuel q m).Reaches { m with stack := m.slot r :: m.stack }
  /-- A comparison at 64 bits compares the numbers that both words stand for. -/
  comparison : ∀ {ctx : Context} {locals : Locals} {op : ComparisonOp} {a b : Expr} {s t : State} {operand : Operand},
    emitComparison E ctx locals op a b s = .ok (operand, t) → t.code.back? = some { op := Opcode.compare op .i64 } →
    TakesBoth E ctx locals a b s t fun m f =>
      ∀ (i j : Int) rest, Scalar.i64.Holds i → Scalar.i64.Holds j → m.stack = word j :: word i :: rest →
        f.Reaches { m with stack := word (truth (holds op i j)) :: rest }
  /-- An operator at 64 bits works on the numbers that both words stand for. -/
  arithmetic : ∀ {ctx : Context} {locals : Locals} {op : ArithmeticOp} {a b : Expr} {s t : State} {operand : Operand},
    emitArithmetic E ctx locals op a b s = .ok (operand, t) → t.code.back? = some { op := Opcode.arithmetic op .i64 } →
    TakesBoth E ctx locals a b s t fun m f =>
      ∀ (i j : Int) rest, Scalar.i64.Holds i → Scalar.i64.Holds j → m.stack = word j :: word i :: rest →
        f = (Source.pushed { m with pc := m.pc + 1 } rest (Source.result? op .i64 i j)).flow
  /-- A checked index of 32 bits is checked by its low half, but the element is read where the whole word leads. -/
  element : ∀ {ctx : Context} {locals : Locals} {builtin : String} {type : BindingType} {target position : Expr}
    {s t : State}, emitElement E ctx locals builtin type target position true s = .ok ((), t) →
    (∀ s o s', ctx.operand locals position s = .ok (o, s') → o.kind = .int32) →
    ∃ base index s₀ built s₁ s₂, emitCollection E ctx locals target s₀ = .ok (built, s₁) ∧
      store base s₁ = .ok ((), s₂) ∧ Takes E ctx locals position s₂ t fun m f =>
        ∀ (n count : Int) rest, m.stack = word n :: rest → m.HasSlot index →
          (m.stored index (word n) rest).At ((m.stored index (word n) rest).slot base) (word count) →
          Scalar.i32.Holds count → 0 ≤ Scalar.i32.wrap n → Scalar.i32.wrap n < count →
          ∃ pc, f = { m.stored index (word n) rest with pc }.read
            ((m.stored index (word n) rest).slot base + (word n + UInt64.ofNat (headerSlots type)) * slotStride)

variable {type : BindingType} {parameter : Bool} {c : Call} {op : ComparisonOp} {a b d : Expr} {k k' : Kind}
  {l : Local} {base index : Nat} {q : Piece} {site : Site} {s' u v : State} {message name x : String} {w : Width}

theorem coerce_integers (h : k.isInteger = true) (h' : k'.isInteger = true) : coerce k k' = pure () := by
  cases k <;> cases h <;> cases k' <;> cases h' <;> rfl

/-- What follows an integer that is coerced follows it at once. -/
theorem of_coerce_integers {s t : State} (h : k.isInteger = true) (h' : k'.isInteger = true)
    (hrun : coerce k k' s = .ok ((), t)) : t = s := by
  rw [coerce_integers h h'] at hrun
  exact (pure_eq_ok.mp hrun).2.symm

section
variable {E : Emitter} {ctx : Context} {locals : Locals} {e : Expr} {s t : State} {operand : Operand}
  {Q : Machine.State → Flow → Prop}

theorem Takes.after (h : Takes E ctx locals e s' t Q) (hs : Extends s .nop s') : Takes E ctx locals e s t Q := by
  obtain ⟨s₁, operand, u, hs₁, hexpr, hq⟩ := h
  exact ⟨s₁, operand, u, hs.after_nop hs₁, hexpr, hq⟩

/-- What is emitted after the code of an integer that is coerced to an integer. -/
theorem takes_coerced (hs : Extends s .nop s') (hexpr : E.expr ctx locals e s' = .ok (operand, u))
    (hcoerce : coerce operand.kind k u = .ok ((), v)) (hk : k.isInteger = true) (hq : Extends v q t)
    (hQ : ∀ env fuel m, Q m (exec env fuel q m)) : Takes E ctx locals e s t Q := by
  refine ⟨s', operand, u, hs, hexpr, fun hinteger => ⟨q, ?_, hQ⟩⟩
  rwa [← of_coerce_integers hinteger hk hcoerce]

theorem takes_conversion (h : emitConvert E ctx locals c e s = .ok (.value k, t))
    (hk : k.isInteger = true) : Takes E ctx locals e s t fun m f => f = .next m := by
  obtain ⟨target, -, h₁⟩ := lift_bind_eq_ok.mp h
  obtain ⟨source, u, hexpr, h₂⟩ := bind_eq_ok.mp h₁
  obtain ⟨-, h₃⟩ := check_eq_ok.mp h₂
  obtain ⟨w, -, h₄⟩ := lift_bind_eq_ok.mp h₃
  by_cases hbool : target = .bool
  · rw [if_pos hbool] at h₄
    obtain ⟨⟨⟩, _, -, h₅⟩ := bind_eq_ok.mp h₄
    obtain ⟨⟨⟩, _, -, h₆⟩ := bind_eq_ok.mp h₅
    cases (pure_eq_ok.mp h₆).1
    exact absurd hk (by simp [hbool, Kind.isInteger])
  · rw [if_neg hbool] at h₄
    obtain ⟨_, -, h₅⟩ := lift_bind_eq_ok.mp h₄
    obtain ⟨⟨⟩, v, hcoerce, h₆⟩ := bind_eq_ok.mp h₅
    obtain ⟨heq, rfl⟩ := pure_eq_ok.mp h₆
    cases heq
    exact takes_coerced (.nop s) hexpr hcoerce hk (.nop v) fun _ _ _ => rfl

theorem reaches_stored {slot : Nat} (h : store slot u = .ok ((), t)) :
    ∃ q, Extends u q t ∧ ∀ env fuel (m : Machine.State) w rest, m.stack = w :: rest →
      (exec env fuel q m).Reaches (m.stored slot w rest) :=
  ⟨_, (emitWith_inv h rfl).1, fun _ _ _ _ _ => Machine.reaches_store⟩

theorem isCollection_of_ofLiteral? (h : BindingType.ofLiteral? [] c = .ok (some type)) :
    type.shape.isCollection = true := by
  obtain ⟨form, -, -, hcollection⟩ := BindingType.ofLiteral?_inv h
  rw [shape_of_collection hcollection]
  cases form <;> rfl

/-- A collection is built for a place that holds one. -/
theorem isCollection_of_emitCollection (h : emitCollection E ctx locals e s = .ok (type, t)) :
    type.shape.isCollection = true := by
  unfold emitCollection at h
  cases e with
  | literal => exact absurd h throw_ne_ok
  | name ts x =>
    cases hlookup : locals.lookup x with
    | none => simp only [hlookup] at h; exact absurd h throw_ne_ok
    | some l =>
      cases hcollection : l.collection? with
      | none => simp only [hlookup, hcollection] at h; exact absurd h throw_ne_ok
      | some type' =>
        simp only [hlookup, hcollection] at h
        obtain ⟨⟨⟩, _, -, h₁⟩ := bind_eq_ok.mp h
        obtain ⟨rfl, -⟩ := pure_eq_ok.mp h₁
        rw [Local.collection?] at hcollection
        obtain ⟨hl, heq⟩ := Option.ite_none_right_eq_some.mp hcollection
        cases heq
        exact (Bool.and_eq_true_iff.mp hl).1
  | call ts c =>
    obtain ⟨type?, htype, h₁⟩ := lift_bind_eq_ok.mp h
    cases type? with
    | none => exact absurd h₁ throw_ne_ok
    | some type' =>
      obtain ⟨ctx', -, h₂⟩ := lift_bind_eq_ok.mp h₁
      obtain ⟨⟨⟩, _, -, h₃⟩ := bind_eq_ok.mp h₂
      obtain ⟨rfl, -⟩ := pure_eq_ok.mp h₃
      exact isCollection_of_ofLiteral? htype

/-- A binding of a word gets it from the code of its initial value. -/
theorem takes_bindWord {declared : Local} (hbound : bindWord E ctx locals (some e) declared s = .ok (l, t))
    (hshape : l.type.shape = .value) (hkind : l.type.kind.isInteger = true) :
    Takes E ctx locals e s t fun m f => ∀ w rest, m.stack = w :: rest → f.Reaches (m.stored l.slot w rest) := by
  obtain ⟨slot, s₁, hslot, h₁⟩ := bind_eq_ok.mp hbound
  obtain ⟨operand, u, hexpr, h₂⟩ := bind_eq_ok.mp h₁
  by_cases hdeclared : declared.type.shape = .value
  · rw [if_pos hdeclared] at h₂
    obtain ⟨⟨⟩, v, hcoerce, h₃⟩ := bind_eq_ok.mp h₂
    obtain ⟨⟨⟩, t', hstore, h₄⟩ := bind_eq_ok.mp h₃
    obtain ⟨rfl, rfl⟩ := pure_eq_ok.mp h₄
    obtain ⟨q, hq, hexec⟩ := reaches_stored hstore
    exact takes_coerced (newSlots_inv (n := 1) hslot).1 hexpr hcoerce hkind hq hexec
  · rw [if_neg hdeclared] at h₂
    obtain ⟨⟨⟩, v, -, h₃⟩ := bind_eq_ok.mp h₂
    obtain ⟨rfl, -⟩ := pure_eq_ok.mp h₃
    exact absurd hshape hdeclared

theorem isCollection_of_bindArguments {init : Option Expr} (h : bindArguments locals init = .ok l) :
    l.type.shape.isCollection = true := by
  have harguments := (bindArguments_inv h).1
  rw [Local.isArguments, Bool.and_eq_true, beq_iff_eq] at harguments
  rw [harguments.1, Shape.isCollection]

theorem isCollection_of_bindCollection {declared : Local}
    (h : bindCollection E ctx locals name (some e) declared s = .ok (l, t)) : l.type.shape.isCollection = true := by
  obtain ⟨slot, s₁, -, h₁⟩ := bind_eq_ok.mp h
  obtain ⟨built, s₂, hbuilt, h₂⟩ := bind_eq_ok.mp h₁
  obtain ⟨-, h₃⟩ := check_eq_ok.mp h₂
  obtain ⟨⟨⟩, s₃, -, h₄⟩ := bind_eq_ok.mp h₃
  obtain ⟨rfl, -⟩ := pure_eq_ok.mp h₄
  exact (isCollection_of_emitCollection hbuilt : built.shape.isCollection = true)

theorem type_of_bindText {declared : Local}
    (h : bindText E ctx locals name (some e) declared s = .ok (l, t)) : l.type = declared.type := by
  obtain ⟨slot, s₁, -, h₁⟩ := bind_eq_ok.mp h
  obtain ⟨text, s₂, -, h₂⟩ := bind_eq_ok.mp h₁
  obtain ⟨⟨⟩, s₃, -, h₃⟩ := bind_eq_ok.mp h₂
  obtain ⟨rfl, -⟩ := pure_eq_ok.mp h₃
  rfl

/-- What is bound to a plain integer is bound as a word. -/
theorem bindLocal_integer (h : bindLocal E ctx site locals d (some e) parameter s = .ok ((x, l), t))
    (hshape : l.type.shape = .value) (hkind : l.type.kind.isInteger = true) :
    ∃ declared s', Extends s .nop s' ∧ bindWord E ctx locals (some e) declared s' = .ok (l, t) := by
  have hvalue : l.type.shape.isCollection ≠ true := by simp [hshape, Shape.isCollection]
  unfold bindLocal at h
  cases hname : d.boundName? with
  | none =>
    rw [hname] at h
    exact absurd h throw_ne_ok
  | some name =>
    rw [hname] at h
    obtain ⟨declared, s', hdeclared, h₁⟩ := bind_eq_ok.mp h
    by_cases harguments : declared.isArguments = true
    · rw [if_pos harguments] at h₁
      obtain ⟨bound, hbound, h₂⟩ := lift_bind_eq_ok.mp h₁
      cases (pure_eq_ok.mp h₂).1
      exact absurd (isCollection_of_bindArguments hbound) hvalue
    rw [if_neg harguments] at h₁
    by_cases hcollection : declared.type.shape.isCollection = true
    · rw [if_pos hcollection] at h₁
      obtain ⟨bound, _, hbound, h₂⟩ := bind_eq_ok.mp h₁
      cases (pure_eq_ok.mp h₂).1
      exact absurd (isCollection_of_bindCollection hbound) hvalue
    rw [if_neg hcollection] at h₁
    by_cases htext : declared.type.kind = .string ∧ declared.type.shape = .value
    · rw [if_pos htext] at h₁
      obtain ⟨bound, _, hbound, h₂⟩ := bind_eq_ok.mp h₁
      cases (pure_eq_ok.mp h₂).1
      rw [type_of_bindText hbound, htext.1] at hkind
      cases hkind
    rw [if_neg htext] at h₁
    obtain ⟨bound, t', hbound, h₂⟩ := bind_eq_ok.mp h₁
    obtain ⟨heq, rfl⟩ := pure_eq_ok.mp h₂
    cases heq
    exact ⟨declared, s', (declaredLocal_inv hdeclared).1, hbound⟩

theorem takes_declaration (h : bindLocal E ctx site locals d (some e) parameter s = .ok ((x, l), t))
    (hshape : l.type.shape = .value) (hkind : l.type.kind.isInteger = true) :
    Takes E ctx locals e s t fun m f => ∀ w rest, m.stack = w :: rest → f.Reaches (m.stored l.slot w rest) := by
  obtain ⟨declared, s', hs, hbound⟩ := bindLocal_integer h hshape hkind
  exact (takes_bindWord hbound hshape hkind).after hs

theorem takes_assignment {ts : List Transform} (h : emitAssign E ctx locals (.name ts x) e s = .ok (operand, t))
    (hx : locals.lookup x = some l) (hshape : l.type.shape = .value) (hkind : l.type.kind.isInteger = true) :
    operand = .value l.type.kind ∧ Takes E ctx locals e s t fun m f =>
      ∀ w rest, m.stack = w :: rest → f.Reaches (m.stored l.slot w (w :: rest)) := by
  obtain ⟨l', hl', h₁⟩ := lift_bind_eq_ok.mp h
  cases hx.symm.trans (mutableLocal_inv hl').1
  unfold assignLocal at h₁
  obtain ⟨-, h₂⟩ := check_eq_ok.mp h₁
  simp only [hshape] at h₂
  obtain ⟨o, u, hexpr, h₃⟩ := bind_eq_ok.mp h₂
  obtain ⟨⟨⟩, v, hcoerce, h₄⟩ := bind_eq_ok.mp h₃
  obtain ⟨⟨⟩, v₁, hdup, h₅⟩ := bind_eq_ok.mp h₄
  obtain ⟨⟨⟩, v₂, hstore, h₆⟩ := bind_eq_ok.mp h₅
  obtain ⟨rfl, rfl⟩ := pure_eq_ok.mp h₆
  obtain ⟨q, hq, hexec⟩ := reaches_stored hstore
  refine ⟨by simp [Local.operand, hshape], ?_⟩
  refine takes_coerced (.nop s) hexpr hcoerce hkind ((emitWith_inv hdup rfl).1.seq hq) fun env fuel m w rest hm => ?_
  exact (Machine.reaches_dup hm).andThen fun pc =>
    hexec env fuel { m with pc, stack := w :: w :: rest } w (w :: rest) rfl

theorem takes_result {returns : ReturnInfo} {r : Nat}
    (h : returnToEnd E ctx locals returns (some r) (some e) s = .ok ((), t)) (hkind : returns.kind.isInteger = true) :
    Takes E ctx locals e s t fun m f =>
      ∀ w rest, m.stack = w :: rest → ∃ pc, f = .exit ctx.waiting { m.stored r w rest with pc } := by
  have hknown : (returns.kind != .unknown) = true := by
    revert hkind
    cases returns.kind <;> decide
  obtain ⟨o, u, hexpr, h₁⟩ := bind_eq_ok.mp h
  rw [if_pos hknown] at h₁
  obtain ⟨⟨⟩, v, hcoerce, h₂⟩ := bind_eq_ok.mp h₁
  obtain ⟨⟨⟩, v₁, hstore, h₃⟩ := bind_eq_ok.mp h₂
  obtain ⟨q, hq, hexec⟩ := reaches_stored hstore
  refine takes_coerced (.nop s) hexpr hcoerce hkind (hq.seq (exit_inv h₃)) fun env fuel m w rest hm => ?_
  obtain ⟨pc, hpc⟩ := hexec env fuel m w rest hm
  exact ⟨pc, by rw [exec, hpc]; rfl⟩

theorem reaches_loaded {slot : Nat} (h : load slot s = .ok ((), t)) :
    ∃ q, Extends s q t ∧ ∀ env fuel (m : Machine.State),
      (exec env fuel q m).Reaches { m with stack := m.slot slot :: m.stack } :=
  ⟨_, (emitWith_inv h rfl).1, fun _ _ _ => Machine.reaches_load⟩

theorem reaches_name (h : emitLocal l s = .ok (operand, t)) (hshape : l.type.shape = .value) :
    operand = .value l.type.kind ∧ ∃ q, Extends s q t ∧
      ∀ env fuel (m : Machine.State), (exec env fuel q m).Reaches { m with stack := m.slot l.slot :: m.stack } := by
  obtain ⟨⟨⟩, s₁, hload, h₁⟩ := bind_eq_ok.mp h
  simp only [hshape, reduceCtorEq, if_false] at h₁
  obtain ⟨rfl, rfl⟩ := pure_eq_ok.mp h₁
  exact ⟨by simp [Local.operand, hshape], reaches_loaded hload⟩

theorem imm_of_fillAll {target : Nat} {xs : List Exit} {x : Exit} {l : List Instruction} {i : Instruction}
    (hx : x ∈ xs ∨ ∀ i, l[x.position]? = some i → i.imm = UInt64.ofNat target)
    (h : (Piece.fillAll target xs l)[x.position]? = some i) : i.imm = UInt64.ofNat target := by
  induction xs generalizing l with
  | nil => exact hx.elim nofun fun hx => hx i h
  | cons y xs ih =>
    refine ih ?_ h
    by_cases hy : y.position = x.position
    · refine .inr fun i hi => ?_
      replace hi : (Piece.fill target y.position l)[x.position]? = some i := hi
      rw [Piece.fill, hy, List.getElem?_modify_eq] at hi
      obtain ⟨j, -, rfl⟩ := Option.map_eq_some_iff.mp hi
      rfl
    · refine hx.imp (fun hx => (List.mem_cons.mp hx).resolve_left fun heq => hy (heq ▸ rfl)) fun hx i hi => hx i ?_
      replace hi : (Piece.fill target y.position l)[x.position]? = some i := hi
      rwa [Piece.fill, List.getElem?_modify_ne _ _ hy] at hi

theorem length_fillAll (target : Nat) (xs : List Exit) (l : List Instruction) :
    (Piece.fillAll target xs l).length = l.length := by
  induction xs generalizing l with
  | nil => rfl
  | cons x xs ih => exact (ih _).trans (List.length_modify ..)

/-- The exits of a body lead to its end. -/
theorem exits_of_emitBody {body : List Expr} {exits : List Exit} (h : emitBody E ctx locals body s = .ok (exits, t)) :
    ∀ x ∈ exits, ∀ i, t.code[x.position]? = some i → i.imm = UInt64.ofNat t.code.size := by
  obtain ⟨_, _, -, h₁⟩ := bind_eq_ok.mp h
  obtain ⟨⟨⟩, _, -, h₂⟩ := bind_eq_ok.mp h₁
  obtain ⟨⟨⟩, u, -, h₃⟩ := bind_eq_ok.mp h₂
  obtain ⟨_, _, hget, h₄⟩ := bind_eq_ok.mp h₃
  cases hget
  obtain ⟨⟨⟩, v, hclose, h₅⟩ := bind_eq_ok.mp h₄
  obtain ⟨⟨⟩, _, hexits, h₆⟩ := bind_eq_ok.mp h₅
  cases hexits
  obtain ⟨rfl, rfl⟩ := pure_eq_ok.mp h₆
  obtain ⟨hcode, -⟩ := closeAll_inv hclose
  have hsize : v.code.size = u.code.size := by
    rw [← Array.length_toList, hcode, length_fillAll, Array.length_toList]
  intro x hx i hi
  rw [← Array.getElem?_toList, hcode] at hi
  exact (imm_of_fillAll (.inl hx) hi).trans (congrArg _ hsize.symm)

theorem reaches_call {callee : Definition}
    (h : expand E ctx locals c callee true s = .ok (some k, t)) (hcallee : callee.isStruct = false) :
    ∃ effects returns r inner s₁ exits s₂,
      emitBody E (bodyContext ctx callee effects returns (some r)) inner callee.body s₁ = .ok (exits, s₂) ∧
      k = (if returns.kind = .unknown then .int32 else returns.kind) ∧
      (∀ x ∈ exits, ∀ i, s₂.code[x.position]? = some i → i.imm = UInt64.ofNat s₂.code.size) ∧
      ∃ q, t.code.toList = s₂.code.toList ++ q.code 0 s₂.code.size ∧
        ∀ env fuel (m : Machine.State), (exec env fuel q m).Reaches { m with stack := m.slot r :: m.stack } := by
  unfold expand at h
  obtain ⟨-, h₁⟩ := check_eq_ok.mp h
  obtain ⟨-, h₂⟩ := check_eq_ok.mp h₁
  obtain ⟨params, -, h₃⟩ := lift_bind_eq_ok.mp h₂
  obtain ⟨fillings, -, h₄⟩ := lift_bind_eq_ok.mp h₃
  rw [if_neg (by simp [hcallee])] at h₄
  obtain ⟨returns, _, -, h₅⟩ := bind_eq_ok.mp h₄
  obtain ⟨-, h₆⟩ := check_eq_ok.mp h₅
  obtain ⟨effects, -, h₇⟩ := lift_bind_eq_ok.mp h₆
  obtain ⟨start, _, -, h₈⟩ := bind_eq_ok.mp h₇
  obtain ⟨inner, _, -, h₉⟩ := bind_eq_ok.mp h₈
  obtain ⟨slot, s₁, -, h₁₀⟩ := bind_eq_ok.mp h₉
  obtain ⟨exits, s₂, hbody, h₁₁⟩ := bind_eq_ok.mp h₁₀
  obtain ⟨⟨⟩, s₃, hnote, h₁₂⟩ := bind_eq_ok.mp h₁₁
  cases slot with
  | none => exact nomatch (pure_eq_ok.mp h₁₂).1
  | some r =>
    obtain ⟨⟨⟩, s₄, hload, h₁₃⟩ := bind_eq_ok.mp h₁₂
    obtain ⟨hk, rfl⟩ := pure_eq_ok.mp h₁₃
    obtain ⟨q, hq, hexec⟩ := reaches_loaded hload
    cases hnote
    refine ⟨effects, returns, r, inner, s₁, exits, s₂, hbody, (Option.some.inj hk).symm, exits_of_emitBody hbody, ?_⟩
    exact ⟨q, hq.code, hexec⟩

/-- What is emitted after the code of two integers that are coerced to the width of an integer. -/
theorem takesBoth_coerced (hw : w.kind.isInteger = true) (hs : Extends s .nop s')
    (ha : E.exprAt ctx locals a w s' = .ok ((), u)) (hb : E.exprAt ctx.behind locals b w u = .ok ((), v))
    (hq : Extends v q t) (hQ : ∀ env fuel m, Q m (exec env fuel q m)) : TakesBoth E ctx locals a b s t Q := by
  obtain ⟨x, u₁, hexpr, hcoerce⟩ := bind_eq_ok.mp ha
  obtain ⟨y, v₁, hexpr', hcoerce'⟩ := bind_eq_ok.mp hb
  refine ⟨s', x, u₁, hs, hexpr, fun hx => ?_⟩
  cases of_coerce_integers hx hw hcoerce
  exact takes_coerced (.nop _) hexpr' hcoerce' hw hq hQ

/-- Both operands are inferred before anything is emitted. -/
theorem operands_inv {α : Type} {f : Operand → Operand → Lowering α} {r : α}
    (h : (do f (← ctx.operand locals a) (← ctx.operand locals b)) s = .ok (r, t)) :
    ∃ x y s', Extends s .nop s' ∧ f x y s' = .ok (r, t) := by
  obtain ⟨x, s₁, hx, h₁⟩ := bind_eq_ok.mp h
  obtain ⟨y, s₂, hy, h₂⟩ := bind_eq_ok.mp h₁
  obtain ⟨cache, -, rfl⟩ := infer_inv hx
  obtain ⟨cache', -, rfl⟩ := infer_inv hy
  exact ⟨x, y, _, extends_cache.mp (.nop { s with cache := cache' }), h₂⟩

theorem last_of_emit {op op' : Opcode} (h : emit op s = .ok ((), t)) (hlast : t.code.back? = some { op := op' }) :
    op = op' := by
  cases h
  rw [Array.back?_push] at hlast
  exact congrArg Instruction.op (Option.some.inj hlast)

theorem isInteger_of_compare (h : Opcode.compare op w = Opcode.compare op .i64) : w.kind.isInteger = true := by
  cases op <;> cases w <;> first | rfl | exact nomatch h

theorem isInteger_of_arithmetic {op : ArithmeticOp}
    (h : Opcode.arithmetic op w = Opcode.arithmetic op .i64) : w.kind.isInteger = true := by
  cases op <;> cases w <;> first | rfl | exact nomatch h

theorem takes_comparison (h : emitComparison E ctx locals op a b s = .ok (operand, t))
    (hlast : t.code.back? = some { op := Opcode.compare op .i64 }) :
    TakesBoth E ctx locals a b s t fun m f =>
      ∀ (i j : Int) rest, Scalar.i64.Holds i → Scalar.i64.Holds j → m.stack = word j :: word i :: rest →
        f.Reaches { m with stack := word (truth (holds op i j)) :: rest } := by
  obtain ⟨x, y, s', hs, h₁⟩ := operands_inv h
  obtain ⟨w, -, h₂⟩ := lift_bind_eq_ok.mp h₁
  obtain ⟨⟨⟩, u, ha, h₃⟩ := bind_eq_ok.mp h₂
  obtain ⟨⟨⟩, v, hb, h₄⟩ := bind_eq_ok.mp h₃
  obtain ⟨⟨⟩, v₁, hcompare, h₅⟩ := bind_eq_ok.mp h₄
  obtain ⟨-, rfl⟩ := pure_eq_ok.mp h₅
  have hop := last_of_emit hcompare hlast
  have hq := (emitWith_inv hcompare (Source.plain_compare op w)).1
  refine takesBoth_coerced (isInteger_of_compare hop) hs ha hb hq fun env fuel m i j rest hi hj hm => ?_
  refine ⟨m.pc + 1, ?_⟩
  rw [Machine.exec_op]
  simp only [hop]
  exact congrArg Machine.Outcome.flow
    (Source.perform_compare (k := .i64) (s := { m with pc := m.pc + 1 }) op nofun hi hj hm)

theorem takes_arithmetic {op : ArithmeticOp} (h : emitArithmetic E ctx locals op a b s = .ok (operand, t))
    (hlast : t.code.back? = some { op := Opcode.arithmetic op .i64 }) :
    TakesBoth E ctx locals a b s t fun m f =>
      ∀ (i j : Int) rest, Scalar.i64.Holds i → Scalar.i64.Holds j → m.stack = word j :: word i :: rest →
        f = (Source.pushed { m with pc := m.pc + 1 } rest (Source.result? op .i64 i j)).flow := by
  obtain ⟨x, y, s', hs, h₁⟩ := operands_inv h
  obtain ⟨resolution, -, h₂⟩ := lift_bind_eq_ok.mp h₁
  have hexec {w : Width} (hop : Opcode.arithmetic op w = Opcode.arithmetic op .i64) {plain} (env fuel)
      (m : Machine.State) (i j : Int) (rest) (hi : Scalar.i64.Holds i) (hj : Scalar.i64.Holds j)
      (hm : m.stack = word j :: word i :: rest) : exec env fuel (.op { op := Opcode.arithmetic op w } plain) m =
        (Source.pushed { m with pc := m.pc + 1 } rest (Source.result? op .i64 i j)).flow := by
    rw [Machine.exec_op]
    simp only [hop]
    exact congrArg Machine.Outcome.flow (Source.perform_arithmetic (k := .i64) op nofun hi hj hm)
  cases resolution with
  | numeric w =>
    obtain ⟨⟨⟩, u, ha, h₃⟩ := bind_eq_ok.mp h₂
    obtain ⟨⟨⟩, v, hb, h₄⟩ := bind_eq_ok.mp h₃
    obtain ⟨⟨⟩, v₁, hop, h₅⟩ := bind_eq_ok.mp h₄
    obtain ⟨-, rfl⟩ := pure_eq_ok.mp h₅
    have hw := last_of_emit hop hlast
    have hq := (emitWith_inv hop (Source.plain_arithmetic op w)).1
    exact takesBoth_coerced (isInteger_of_arithmetic hw) hs ha hb hq fun env fuel m => hexec hw env fuel m
  | pointer k =>
    obtain ⟨x', u, ha, h₃⟩ := bind_eq_ok.mp h₂
    obtain ⟨y', v, hb, h₄⟩ := bind_eq_ok.mp h₃
    obtain ⟨⟨⟩, v₁, hop, h₅⟩ := bind_eq_ok.mp h₄
    obtain ⟨-, rfl⟩ := pure_eq_ok.mp h₅
    have hq := (emitWith_inv hop (Source.plain_arithmetic op .i64)).1
    exact ⟨s', x', u, hs, ha, fun _ => ⟨u, y', v, .nop u, hb, fun _ => ⟨_, hq, fun env fuel m => hexec rfl env fuel m⟩⟩⟩

/-- A check is passed where the comparison of a slot with a bound fails. The bound, which may depend on the slots, is
    pushed by code of its own. -/
theorem reaches_passed {bound : Lowering Unit}
    {B : Machine.State → Int → Prop}
    (h : (do load index; bound; compare op .i32; whenNonzero (fail message)) s = .ok ((), t))
    (hbound : ∀ {s t}, bound s = .ok ((), t) → ∃ q, Extends s q t ∧ ∀ env fuel (m : Machine.State) j, B m j →
      (exec env fuel q m).Reaches { m with stack := word j :: m.stack }) :
    ∃ q, Extends s q t ∧ ∀ env fuel (m : Machine.State) i j, m.slot index = word i →
      (∀ pc stack, B { m with pc, stack } j) →
      holds op (Scalar.i32.wrap i) (Scalar.i32.wrap j) = false → (exec env fuel q m).Reaches m := by
  obtain ⟨⟨⟩, s₁, hload, h₁⟩ := bind_eq_ok.mp h
  obtain ⟨⟨⟩, s₂, hpush, h₂⟩ := bind_eq_ok.mp h₁
  obtain ⟨⟨⟩, s₃, hcompare, h₃⟩ := bind_eq_ok.mp h₂
  obtain ⟨s₄, t₄, hfail, -, -, -, -, hguard⟩ := whenNonzero_inv h₃
  obtain ⟨text, -, hfailure⟩ := fail_inv hfail
  obtain ⟨q, hq, hexec⟩ := hbound hpush
  have hcode := (emitWith_inv hcompare (Source.plain_compare op .i32)).1
  refine ⟨_, (emitWith_inv hload rfl).1.seq (hq.seq (hcode.seq (hguard _ hfailure))), ?_⟩
  intro env fuel m i j hi hB hfalse
  refine Machine.reaches_load.andThen fun pc₁ => (hexec env fuel _ j (hB _ _)).andThen fun pc₂ => ?_
  have hstack : word j :: m.slot index :: m.stack = word j :: word i :: m.stack := by rw [hi]
  refine (Machine.reaches_compare hstack).andThen fun pc₃ => ?_
  exact Machine.reaches_guard (by rw [hfalse]; rfl)

theorem reaches_checkRange
    (h : checkRange .i32 index (do load base; emit .loadIndirect; coerce .int32 .int32) message s = .ok ((), t)) :
    ∃ q, Extends s q t ∧ ∀ env fuel (m : Machine.State) n count, m.slot index = word n →
      m.At (m.slot base) (word count) → Scalar.i32.Holds count → 0 ≤ Scalar.i32.wrap n →
      Scalar.i32.wrap n < count → (exec env fuel q m).Reaches m := by
  obtain ⟨⟨⟩, s₁, hnegative, h₁⟩ := bind_eq_ok.mp h
  obtain ⟨q₁, hq₁, hexec₁⟩ := reaches_passed (B := fun _ j => j = 0) hnegative fun hpush =>
    ⟨_, (emitWith_inv hpush (Source.plain_push .i32)).1, fun env fuel m j hj => ⟨m.pc + 1, by subst hj; rfl⟩⟩
  obtain ⟨q₂, hq₂, hexec₂⟩ := reaches_passed (B := fun m count => m.At (m.slot base) (word count)) h₁ <| by
    intro s t hcount
    obtain ⟨⟨⟩, u, hload, hcount⟩ := bind_eq_ok.mp hcount
    obtain ⟨⟨⟩, v, hread, hcoerce⟩ := bind_eq_ok.mp hcount
    obtain ⟨-, rfl⟩ := pure_eq_ok.mp hcoerce
    refine ⟨_, (emitWith_inv hload rfl).1.seq (emitWith_inv hread rfl).1, fun env fuel m count hat => ?_⟩
    exact Machine.reaches_load.andThen fun pc => Machine.reaches_loadIndirect rfl hat
  refine ⟨q₁.seq q₂, hq₁.seq hq₂, fun env fuel m n count hn hat hcount hle hlt => ?_⟩
  refine (hexec₁ env fuel m n 0 hn (fun _ _ => rfl) ?_).andThen fun pc => ?_
  · exact decide_eq_false (Int.not_lt.mpr hle)
  · refine hexec₂ env fuel { m with pc } n count hn (fun _ _ => hat) ?_
    rw [Scalar.wrap_eq_self hcount]
    exact decide_eq_false (Int.not_le.mpr hlt)

theorem reaches_address (h : emitAddress base index 1 (Int64.ofNat (headerSlots type)) s = .ok ((), t)) :
    ∃ q, Extends s q t ∧ ∀ env fuel (m : Machine.State), (exec env fuel q m).Reaches { m with
      stack := (m.slot base + (m.slot index + UInt64.ofNat (headerSlots type)) * slotStride) :: m.stack } := by
  obtain ⟨⟨⟩, s₁, h₁, h⟩ := bind_eq_ok.mp h
  obtain ⟨⟨⟩, s₂, h₂, h⟩ := bind_eq_ok.mp h
  obtain ⟨⟨⟩, s₃, h₃, h⟩ := bind_eq_ok.mp h
  obtain ⟨⟨⟩, s₄, h₄, h⟩ := bind_eq_ok.mp h
  obtain ⟨⟨⟩, s₅, h₅, h⟩ := bind_eq_ok.mp h
  obtain ⟨⟨⟩, s₆, h₆, h⟩ := bind_eq_ok.mp h
  obtain ⟨⟨⟩, s₇, h₇, h⟩ := bind_eq_ok.mp h
  obtain ⟨⟨⟩, s₈, h₈, h₉⟩ := bind_eq_ok.mp h
  refine ⟨_, (emitWith_inv h₁ rfl).1.seq <| (emitWith_inv h₂ rfl).1.seq <| (emitWith_inv h₃ rfl).1.seq <|
    (emitWith_inv h₄ rfl).1.seq <| (emitWith_inv h₅ rfl).1.seq <| (emitWith_inv h₆ rfl).1.seq <|
    (emitWith_inv h₇ rfl).1.seq <| (emitWith_inv h₈ rfl).1.seq (emitWith_inv h₉ rfl).1, ?_⟩
  refine fun env fuel m => ⟨m.pc + 9, ?_⟩
  have hone : m.slot index * 1 = m.slot index := UInt64.mul_one _
  have hheader : (Int64.ofNat (headerSlots type)).toUInt64 = UInt64.ofNat (headerSlots type) := by
    unfold headerSlots
    split <;> rfl
  rw [← hone, ← hheader]
  rfl

theorem takes_element {builtin : String} {target position : Expr}
    (h : emitElement E ctx locals builtin type target position true s = .ok ((), t))
    (hposition : ∀ s o s', ctx.operand locals position s = .ok (o, s') → o.kind = .int32) :
    ∃ base index s₀ built s₁ s₂, emitCollection E ctx locals target s₀ = .ok (built, s₁) ∧
      store base s₁ = .ok ((), s₂) ∧ Takes E ctx locals position s₂ t fun m f =>
        ∀ (n count : Int) rest, m.stack = word n :: rest → m.HasSlot index →
          (m.stored index (word n) rest).At ((m.stored index (word n) rest).slot base) (word count) →
          Scalar.i32.Holds count → 0 ≤ Scalar.i32.wrap n → Scalar.i32.wrap n < count →
          ∃ pc, f = { m.stored index (word n) rest with pc }.read
            ((m.stored index (word n) rest).slot base + (word n + UInt64.ofNat (headerSlots type)) * slotStride) := by
  obtain ⟨base, s₀, -, h₁⟩ := bind_eq_ok.mp h
  obtain ⟨built, s₁, hbuilt, h₂⟩ := bind_eq_ok.mp h₁
  obtain ⟨⟨⟩, s₂, hstore, h₃⟩ := bind_eq_ok.mp h₂
  obtain ⟨⟨index, w⟩, s₃, hspill, h₄⟩ := bind_eq_ok.mp h₃
  obtain ⟨⟨⟩, s₄, hcheck, h₅⟩ := bind_eq_ok.mp h₄
  obtain ⟨⟨⟩, s₅, haddress, hread⟩ := bind_eq_ok.mp h₅
  refine ⟨base, index, s₀, built, s₁, s₂, hbuilt, hstore, ?_⟩
  obtain ⟨w', u₁, hwidth, h₆⟩ := bind_eq_ok.mp hspill
  obtain ⟨slot, u₂, hslot, h₇⟩ := bind_eq_ok.mp h₆
  obtain ⟨⟨⟩, u₃, hexpr, h₈⟩ := bind_eq_ok.mp h₇
  obtain ⟨⟨⟩, u₄, hindex, h₉⟩ := bind_eq_ok.mp h₈
  obtain ⟨heq, rfl⟩ := pure_eq_ok.mp h₉
  cases heq
  obtain ⟨o, u₅, hoperand, h₁₀⟩ := bind_eq_ok.mp hwidth
  obtain ⟨-, h₁₁⟩ := check_eq_ok.mp h₁₀
  obtain ⟨hw, rfl⟩ := lift_eq_ok.mp h₁₁
  rw [hposition _ _ _ hoperand] at hw
  cases hw
  obtain ⟨cache, -, rfl⟩ := infer_inv hoperand
  obtain ⟨o', v, hexpr, hcoerce⟩ := bind_eq_ok.mp hexpr
  obtain ⟨q₁, hq₁, hexec₁⟩ := reaches_stored hindex
  obtain ⟨q₂, hq₂, hexec₂⟩ := reaches_checkRange hcheck
  obtain ⟨q₃, hq₃, hexec₃⟩ := reaches_address haddress
  have hq₄ := (emitWith_inv hread rfl).1
  refine takes_coerced (extends_cache.mp (newSlots_inv (n := 1) hslot).1) hexpr hcoerce rfl
    (((hq₁.seq hq₂).seq hq₃).seq hq₄) fun env fuel m n count rest hm hhas hat hcount hle hlt => ?_
  have hslot : (m.stored index (word n) rest).slot index = word n := Machine.State.slot_stored hhas
  have hbefore : (exec env fuel ((q₁.seq q₂).seq q₃) m).Reaches { m.stored index (word n) rest with
      stack := ((m.stored index (word n) rest).slot base +
        (word n + UInt64.ofNat (headerSlots type)) * slotStride) :: rest } := by
    refine ((hexec₁ env fuel m (word n) rest hm).andThen fun pc =>
      hexec₂ env fuel { m.stored index (word n) rest with pc } n count hslot hat hcount hle hlt).andThen fun pc => ?_
    obtain ⟨pc', hpc'⟩ := hexec₃ env fuel { m.stored index (word n) rest with pc }
    rw [show ({ m.stored index (word n) rest with pc } : Machine.State).slot index = word n from hslot] at hpc'
    exact ⟨pc', hpc'⟩
  obtain ⟨pc, hpc⟩ := hbefore
  refine ⟨pc + 1, ?_⟩
  rw [exec, hpc, Flow.andThen]
  exact Machine.exec_loadIndirect rfl

/-- A word is the sign extension of its low half only if the number that it stands for is one of 32 bits. -/
theorem word_wrap_i32 {n : Int} (h : Scalar.i64.Holds n) : word (Scalar.i32.wrap n) = word n ↔ Scalar.i32.Holds n := by
  have hwrap := Scalar.holds_wrap .i32 n
  have hwide : Scalar.i64.Holds (Scalar.i32.wrap n) :=
    ⟨Int.le_trans (by decide) hwrap.1, Int.lt_trans hwrap.2 (by decide)⟩
  rw [Source.word_inj_i64 hwide h]
  constructor
  · intro heq
    rwa [heq] at hwrap
  · exact Scalar.wrap_eq_self

end

def declared (name type : String) (init : Expr) : Expr :=
  .call [{ name := "mut" }, { name := type }] { name, args := [init], labels := [none], isBinding := true }

def narrowing (v : Int64) : Program where
  definitions := [{
    path := "/main"
    transforms := [{ name := "return", templateArgs := ["i64"] }]
    statements := [
      declared "narrow" "i32" (.int32 0),
      .assign (.ident "narrow") (.templateCall "convert" ["i32"] [.int64 v]),
      declared "wide" "i64" (.ident "narrow")]
    result := some (.ident "wide") }]

def narrowingModule (v : Int64) : CodeModule where
  functions := [{
    name := "/main"
    code := #[⟨.pushI32, 0⟩, ⟨.storeLocal, 0⟩, ⟨.pushI64, v.toUInt64⟩, ⟨.dup, 0⟩, ⟨.storeLocal, 0⟩, ⟨.pop, 0⟩,
      ⟨.loadLocal, 0⟩, ⟨.storeLocal, 1⟩, ⟨.loadLocal, 1⟩, ⟨.returnI64, 0⟩] }]
  strings := #[]
  entry := 0

theorem compile_narrowing (v : Int64) : (narrowing v).compile {} = .ok (narrowingModule v) := by rfl

theorem run_narrowing (v : Int64) (args : Array String) :
    Machine.run (narrowingModule v) args 10 = .ok { value := some (word v.toInt), output := {} } := by
  rw [Source.word_toInt]
  have hslots {f : CodeFunction} (hf : CodeModule.entry? (narrowingModule v) = some f) :
      Machine.slotCount f.code = 2 := by
    cases hf
    rfl
  unfold Machine.run
  split
  case h_1 h => cases h
  case h_2 f hf =>
    rw [hslots hf, if_neg (by decide)]
    cases hf
    rfl

/-- Integers pass whole, through places of 32 bits too: what comes out of such a place is the sign extension of its low
    half exactly if it was in range where it went in, and a run returns whatever number was passed through. -/
theorem integer_words_pass_whole (E : Emitter) : PassesWhole E ∧
    (∀ n, Scalar.i64.Holds n → (word (Scalar.i32.wrap n) = word n ↔ Scalar.i32.Holds n)) ∧
    ∀ v args, ∃ m, (narrowing v).compile {} = .ok m ∧
      Machine.run m args 10 = .ok { value := some (word v.toInt), output := {} } := by
  refine ⟨?_, fun _ => word_wrap_i32, fun v args => ⟨_, compile_narrowing v, run_narrowing v args⟩⟩
  exact {
    conversion := takes_conversion
    declaration := takes_declaration
    assignment := takes_assignment
    result := takes_result
    slot := Machine.State.slot_stored
    name := reaches_name
    call := reaches_call
    comparison := takes_comparison
    arithmetic := takes_arithmetic
    element := takes_element }

/-- A number whose low half is five is returned as it is. -/
theorem narrowing_leaves_range : ∃ m, (narrowing 4294967301).compile {} = .ok m ∧
    Machine.run m #[] 10 = .ok { value := some (word 4294967301), output := {} } ∧
    word (Scalar.i32.wrap 4294967301) = word 5 ∧ word (Scalar.i32.wrap 4294967301) ≠ word 4294967301 := by
  obtain ⟨-, hrange, hrun⟩ := integer_words_pass_whole (.atDepth 10)
  obtain ⟨m, hcompile, hm⟩ := hrun 4294967301 #[]
  have hnot : ¬Scalar.i32.Holds 4294967301 := fun h => absurd h.2 (by decide)
  exact ⟨m, hcompile, hm, by decide, mt (hrange 4294967301 ⟨by decide, by decide⟩).mp hnot⟩

end Lower
end FlatCode
