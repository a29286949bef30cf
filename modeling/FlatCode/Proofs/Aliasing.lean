import FlatCode.Proofs.Building.Collection

/-! Ways to a variable. A variable can be changed and read by its name, by a reference to it and through a pointer to it.
    Main result: a program that makes any changes in any of these ways and then reads the variable in any of them is
    compiled, and its runs return what the changes make of a single number (`changes_through_aliases`). The code keeps the
    number in one slot and its address in two others (`Aliased`); each step through a pointer takes a slot more. -/

namespace FlatCode.Aliasing
open Source (Scalar word)

/-! ### Programs -/

inductive Access where
  | name
  | reference
  | pointer
deriving DecidableEq

def Access.expr : Access → Expr
  | .name => .ident "x"
  | .reference => .ident "r"
  | .pointer => .plainCall "dereference" [.ident "p"]

inductive Step where
  | increment
  | decrement
deriving DecidableEq

namespace Step

def builtin : Step → String
  | .increment => "increment"
  | .decrement => "decrement"

def op : Step → ArithmeticOp
  | .increment => .plus
  | .decrement => .minus

def apply (T : Scalar) (v : Int) : Step → Int
  | .increment => T.wrap (v + 1)
  | .decrement => T.wrap (v - 1)

end Step

inductive Update where
  | assign (value : Int)
  | step (s : Step)
deriving DecidableEq

structure Change where
  target : Access
  update : Update
deriving DecidableEq

namespace Change

def statement (T : Scalar) (c : Change) : Expr :=
  match c.update with
  | .assign value => .assign c.target.expr (T.literal value)
  | .step s => .plainCall s.builtin [c.target.expr]

def apply (T : Scalar) (v : Int) (c : Change) : Int :=
  match c.update with
  | .assign value => value
  | .step s => s.apply T v

def InRange (T : Scalar) (c : Change) : Prop := ∀ value, c.update = .assign value → T.Holds value

/-- The slots that a change takes: a step through a pointer keeps the address in one. -/
def slots (c : Change) : Nat :=
  match c.target, c.update with
  | .pointer, .step _ => 1
  | _, _ => 0

end Change

def declaration (x : String) (transforms : List Transform) (init : Expr) : Expr :=
  .call transforms { name := x, args := [init], labels := [none], isBinding := true }

def variableOf (T : Scalar) (init : Expr) : Expr := declaration "x" [{ name := T.kind.typeName }, { name := "mut" }] init

/-- `[Reference<T> mut] r{location(x)}` and `[Pointer<T>] p{location(x)}`. -/
def aliases (T : Scalar) : List Expr :=
  [declaration "r" [{ name := "Reference", templateArgs := [T.kind.typeName] }, { name := "mut" }]
      (.plainCall "location" [.ident "x"]),
    declaration "p" [{ name := "Pointer", templateArgs := [T.kind.typeName] }] (.plainCall "location" [.ident "x"])]

def declarations (T : Scalar) (init : Expr) : List Expr := variableOf T init :: aliases T

def body (T : Scalar) (init : Expr) (changes : List Change) (result : Access) : List Expr :=
  declarations T init ++ (changes.map (Change.statement T) ++ [.ret result.expr])

end FlatCode.Aliasing

/-! ### Instructions -/

namespace FlatCode.Lower
open Machine
open Source (Scalar word)

namespace Behaviour

def duplicates : Behaviour := fun _ m f => ∃ w rest, m.stack = w :: rest ∧ f = .next { m with stack := w :: w :: rest }

def drops : Behaviour := fun _ m f => ∃ w rest, m.stack = w :: rest ∧ f = .next { m with stack := rest }

def writes (k : Nat) : Behaviour := fun _ m f =>
  ∃ n w rest, m.Roomy n ∧ k < n ∧ m.stack = w :: address k :: rest ∧ f = .next (m.stored k w (w :: rest))

def steps (k : Scalar) (g : Int → Int) : Behaviour := fun _ m f =>
  ∃ v rest, m.stack = word v :: rest ∧ k.Holds v ∧ f = .next { m with stack := word (g v) :: rest }

/-- The number in a slot, whose address is in another one, is replaced by what `g` gives for it, which is left. -/
def stepsAt (k : Scalar) (g : Int → Int) (slot pointer : Nat) : Behaviour := fun _ m f =>
  ∃ n v, m.Roomy n ∧ slot < n ∧ m.slot pointer = address slot ∧ m.slot slot = word v ∧ k.Holds v ∧
    f = .next (m.stored slot (word (g v)) (word (g v) :: m.stack))

end Behaviour

section
variable {n : Nat} {k : Scalar} {op : ArithmeticOp} {g : Int → Int}

theorem builds_dup : Builds n (emit .dup) () n 0 1 .duplicates := by
  refine builds_op rfl ?_
  rintro env m f ⟨w, rest, hm, rfl⟩
  exact .op fun pc => by simp only [Opcode.operation, perform, State.pop, hm, State.push]

theorem builds_pop : Builds n (emit .pop) () n 0 1 .drops := by
  refine builds_op rfl ?_
  rintro env m f ⟨w, rest, hm, rfl⟩
  exact .op fun pc => by simp only [Opcode.operation, perform, State.pop, hm]

theorem builds_storeIndirect (slot : Nat) : Builds n (emit .storeIndirect) () n 0 1 (.writes slot) := by
  refine builds_op rfl ?_
  rintro env m f ⟨N, w, rest, hroom, hslot, hm, rfl⟩
  obtain ⟨haligned, hindex⟩ := hroom.address_spec hslot
  refine .op fun pc => ?_
  simp only [Opcode.operation, perform, State.pop, hm, State.atAddress, State.stored]
  rw [hindex, if_pos ⟨haligned, Nat.lt_of_lt_of_le hslot hroom.slots⟩, hroom.toNat_ofNat hslot]

theorem builds_addressOf {slot : Nat} :
    Builds n (emitWith .addressOfLocal (UInt64.ofNat slot)) () n 0 1 (.pushes fun _ => address slot) :=
  builds_push (g := (· * slotStride)) rfl rfl

theorem builds_stepTop (hk : k ≠ .bool) (hop : ∀ v, Source.result? op k v 1 = some (g v)) :
    Builds n (stepTop op k.width) () n 0 2 (.steps k g) := by
  refine Builds.mono (.bind (builds_pushInt hk k.holds_one) (builds_arithmetic hk)) rfl (by omega) (by omega) ?_
  rintro env m f ⟨v, rest, hm, hv, rfl⟩
  exact .next rfl ⟨v, 1, g v, rest, by rw [hm]; rfl, hv, k.holds_one, hop v, rfl⟩

theorem builds_stepIndirect (slot : Nat) {pointer : Nat} (hk : k ≠ .bool) (hop : ∀ v, Source.result? op k v 1 = some (g v)) :
    Builds n (stepIndirect op k.width pointer) () n 0 6 (.stepsAt k g slot pointer) := by
  refine Builds.mono (.bind builds_load (.bind builds_load (.bind builds_loadIndirect (.bind (builds_stepTop hk hop)
    (builds_storeIndirect slot))))) rfl (by omega) (by omega) ?_
  rintro env m f ⟨N, v, hroom, hslot, hpointer, hvalue, hv, rfl⟩
  have hread : m.At (address slot) (word v) := hvalue ▸ hroom.at_address hslot
  refine .next rfl (.next rfl (.next ⟨address slot, word v, address slot :: m.stack, ?_, hread, rfl⟩
    (.next ⟨v, _, rfl, hv, rfl⟩ ⟨N, _, m.stack, ⟨hroom.slots, hroom.few⟩, hslot, rfl, rfl⟩)))
  show m.slot pointer :: m.slot pointer :: m.stack = _
  rw [hpointer]

end
end FlatCode.Lower

/-! ### The variable -/

namespace FlatCode.Aliasing
open Stateful Machine Lower
open Source (Scalar word)

/-- The variable is in the first slot, and its address in the next two. -/
structure Aliased (T : Scalar) (n : Nat) (v : Int) (m : Machine.State) : Prop extends m.Roomy n where
  three : 3 ≤ n
  value : m.slot 0 = word v
  range : T.Holds v
  reference : m.slot 1 = address 0
  pointer : m.slot 2 = address 0

namespace Aliased
variable {T : Scalar} {n k : Nat} {v v' : Int} {w : Word} {m : Machine.State} {rest : List Word}

theorem set (h : Aliased T n v m) (hv : T.Holds v') : Aliased T n v' (m.stored 0 (word v') rest) where
  toRoomy := h.toRoomy.stored
  three := h.three
  value := h.slot_stored (Nat.lt_of_lt_of_le (by decide) h.three)
  range := hv
  reference := by
    have := h.three
    rw [h.slot_stored_ne (by omega) (by omega) (by decide), h.reference]
  pointer := by
    have := h.three
    rw [h.slot_stored_ne (by omega) (by omega) (by decide), h.pointer]

theorem stored (h : Aliased T n v m) (hk : 3 ≤ k) (hn : k < n) : Aliased T n v (m.stored k w rest) where
  toRoomy := h.toRoomy.stored
  three := h.three
  value := by rw [h.slot_stored_ne (by omega) hn (by omega), h.value]
  range := h.range
  reference := by rw [h.slot_stored_ne (by omega) hn (by omega), h.reference]
  pointer := by rw [h.slot_stored_ne (by omega) hn (by omega), h.pointer]

end Aliased

/-- The machine when the address has been kept that a change needs. -/
def Change.kept (c : Change) (n : Nat) (m : Machine.State) : Machine.State :=
  if c.slots = 0 then m else m.stored n (address 0) m.stack

/-- The change is made where `n` slots are taken, and the number is left. -/
def Change.leaves (T : Scalar) (N n : Nat) (c : Change) : Behaviour := fun _ m f =>
  ∃ v, Aliased T N v m ∧ n + c.slots ≤ N ∧
    f = .next ((c.kept n m).stored 0 (word (c.apply T v)) (word (c.apply T v) :: m.stack))

def Change.makes (T : Scalar) (N n : Nat) (c : Change) : Behaviour := fun _ m f =>
  ∃ v, Aliased T N v m ∧ n + c.slots ≤ N ∧ f = .next ((c.kept n m).stored 0 (word (c.apply T v)) m.stack)

def makesAll (T : Scalar) (N : Nat) : Nat → List Change → Behaviour
  | _, [] => .skips
  | n, c :: rest => .AndThen (c.makes T N n) (makesAll T N (n + c.slots) rest)

def slotsOf (changes : List Change) : Nat := (changes.map Change.slots).sum

variable {c : Change} {ctx : Check.Context} {I : Check.Inferrer} {m : Machine.State}

section
variable {T : Scalar} {N n : Nat} {v : Int} {m : Machine.State}

theorem Change.holds_apply (hc : c.InRange T) : T.Holds (c.apply T v) := by
  obtain ⟨target, update⟩ := c
  cases update with
  | assign value => exact hc value rfl
  | step s => cases s <;> exact T.holds_wrap _

/-- One change: the variable gets the number that the change makes of the one it has. -/
theorem Aliased.change (h : Aliased T N v m) (hn : 3 ≤ n) (hc : c.InRange T) (hN : n + c.slots ≤ N)
    (env : Env) :
    ∃ m', c.makes T N n env m (.next m') ∧ Aliased T N (c.apply T v) m' ∧ m'.stack = m.stack ∧ m'.output = m.output := by
  refine ⟨_, ⟨v, h, hN, rfl⟩, ?_⟩
  unfold Change.kept
  split
  · exact ⟨h.set (Change.holds_apply hc), rfl, rfl⟩
  · exact ⟨(h.stored hn (by omega)).set (Change.holds_apply hc), rfl, rfl⟩

/-- All changes: the variable gets what they make of the number one after the other. -/
theorem Aliased.changes (h : Aliased T N v m) (hn : 3 ≤ n) {changes : List Change} (hchanges : ∀ c ∈ changes, c.InRange T)
    (hN : n + slotsOf changes ≤ N) (env : Env) :
    ∃ m', makesAll T N n changes env m (.next m') ∧ Aliased T N (changes.foldl (Change.apply T) v) m' ∧
      m'.stack = m.stack ∧ m'.output = m.output := by
  induction changes generalizing n v m with
  | nil => exact ⟨m, rfl, h, rfl, rfl⟩
  | cons c rest ih =>
    have hslots : slotsOf (c :: rest) = c.slots + slotsOf rest := List.sum_cons
    obtain ⟨hc, hrest⟩ := List.forall_mem_cons.mp hchanges
    obtain ⟨m₁, hmakes, h₁, hstack₁, houtput₁⟩ := h.change hn hc (by omega) env
    obtain ⟨m₂, hall, h₂, hstack₂, houtput₂⟩ := ih h₁ (n := n + c.slots) (by omega) hrest (by omega)
    exact ⟨m₂, .next hmakes hall, h₂, hstack₂.trans hstack₁, houtput₂.trans houtput₁⟩

end

/-! ### Code -/

def locals (T : Scalar) (x r p : Nat) : Locals :=
  [("p", { slot := p, mutable := false, type := { shape := .pointer, kind := T.kind } }),
    ("r", { slot := r, mutable := true, type := { shape := .reference, kind := T.kind } }),
    ("x", { slot := x, mutable := true, type := .scalar T.kind })]

section
variable {T : Scalar} {N n depth : Nat} {v : Int} {ctx : Context} {a : Access}

def assignAt (E : Emitter) (ctx : Context) (T : Scalar) (pointer : Nat) (value : Expr) : Lowering Operand := do
  load pointer
  let operand ← E.expr ctx.behind (locals T 0 1 2) value
  coerce operand.kind T.kind
  emit .storeIndirect
  return .value T.kind

theorem emitAssign_eq {value : Expr} :
    emitAssign (.atDepth (depth + 1)) ctx (locals T 0 1 2) a.expr value = match a with
      | .name => do
        let operand ← (Emitter.atDepth (depth + 1)).expr ctx (locals T 0 1 2) value
        coerce operand.kind T.kind
        emit .dup
        store 0
        return .value T.kind
      | .reference => assignAt (.atDepth (depth + 1)) ctx T 1 value
      | .pointer => assignAt (.atDepth (depth + 1)) ctx T 2 value := by
  cases a <;> cases T <;> rfl

theorem emitStep_eq {builtin : String} {op : ArithmeticOp} (hT : T ≠ .bool) :
    emitStep (.atDepth (depth + 1)) ctx (locals T 0 1 2) builtin op a.expr = match a with
      | .name => do
        load 0
        stepTop op T.width
        emit .dup
        store 0
        return .value T.kind
      | .reference => do
        stepIndirect op T.width 1
        return .value T.kind
      | .pointer => do
        load 2
        stepIndirect op T.width (← spill)
        return .value T.kind := by
  cases a <;> cases T <;> first | rfl | contradiction

theorem expr_eq :
    (Emitter.atDepth (depth + 2)).expr ctx (locals T 0 1 2) a.expr = match a with
      | .name => do
        load 0
        return .value T.kind
      | .reference => do
        load 1
        emit .loadIndirect
        return .value T.kind
      | .pointer => do
        load 2
        emit .loadIndirect
        return .value T.kind := by
  cases a <;> cases T <;> rfl

theorem builds_coerce_self : Builds n (coerce T.kind T.kind) () n 0 0 .skips := by
  have hcoerce : coerce T.kind T.kind = pure () := by cases T <;> rfl
  rw [hcoerce]
  exact .pure

theorem builds_assignAt {pointer : Nat} (hv : T.Holds v) :
    Builds n (assignAt (.atDepth (depth + 1)) ctx T pointer (T.literal v)) (.value T.kind) n 0 3 fun _ m f =>
      m.Roomy 3 ∧ m.slot pointer = address 0 ∧ f = .next (m.stored 0 (word v) (word v :: m.stack)) := by
  refine Builds.mono (.bind builds_load (.bind (builds_literal hv) (.bind builds_coerce_self
    (.map (g := fun _ => Operand.value T.kind) (builds_storeIndirect 0))))) rfl (by omega) (Nat.le_refl 3) ?_
  rintro env m f ⟨hroom, hpointer, rfl⟩
  refine .next rfl (.next rfl (.next rfl ⟨3, word v, m.stack, ⟨hroom.slots, hroom.few⟩, by decide, ?_, rfl⟩))
  show word v :: m.slot pointer :: m.stack = _
  rw [hpointer]

/-- The room of the variable and of what leads to it. -/
theorem Aliased.roomy (h : Aliased T N v m) : m.Roomy 3 := ⟨Nat.le_trans h.three h.slots, h.few⟩

theorem builds_assign (hn : 3 ≤ n) {value : Int} (hvalue : T.Holds value) :
    Builds n (emitAssign (.atDepth (depth + 1)) ctx (locals T 0 1 2) a.expr (T.literal value)) (.value T.kind) n 0 3
      (Change.leaves T N n ⟨a, .assign value⟩) := by
  rw [emitAssign_eq]
  cases a with
  | name =>
    refine Builds.mono (.bind (builds_literal hvalue) (.bind builds_coerce_self (.bind builds_dup
      (.map (g := fun _ => Operand.value T.kind) (builds_store (Nat.lt_of_lt_of_le (by decide) hn)))))) rfl (by omega)
      (by omega) ?_
    rintro env m f ⟨v, h, -, rfl⟩
    exact .next rfl (.next rfl (.next ⟨_, _, rfl, rfl⟩ ⟨_, _, rfl, rfl⟩))
  | reference =>
    refine (builds_assignAt hvalue).mono rfl (Nat.le_refl _) (Nat.le_refl _) ?_
    rintro env m f ⟨v, h, -, rfl⟩
    exact ⟨h.roomy, h.reference, rfl⟩
  | pointer =>
    refine (builds_assignAt hvalue).mono rfl (Nat.le_refl _) (Nat.le_refl _) ?_
    rintro env m f ⟨v, h, -, rfl⟩
    exact ⟨h.roomy, h.pointer, rfl⟩

theorem builds_step (hT : T ≠ .bool) (hn : 3 ≤ n) {s : Step} :
    Builds n (emitStep (.atDepth (depth + 1)) ctx (locals T 0 1 2) s.builtin s.op a.expr) (.value T.kind)
      (n + Change.slots ⟨a, .step s⟩) (if Change.slots ⟨a, .step s⟩ = 0 then 0 else n + 1) 8
      (Change.leaves T N n ⟨a, .step s⟩) := by
  have hop (v : Int) : Source.result? s.op T v 1 = some (s.apply T v) := by cases s <;> rfl
  rw [emitStep_eq hT]
  cases a with
  | name =>
    refine Builds.mono (.bind builds_load (.bind (builds_stepTop hT hop) (.bind builds_dup
      (.map (g := fun _ => Operand.value T.kind) (builds_store (Nat.lt_of_lt_of_le (by decide) hn)))))) rfl
      (Nat.zero_le _) (by omega) ?_
    rintro env m f ⟨v, h, -, rfl⟩
    refine .next rfl (.next ⟨v, m.stack, ?_, h.range, rfl⟩ (.next ⟨_, _, rfl, rfl⟩ ⟨_, _, rfl, rfl⟩))
    show m.slot 0 :: m.stack = _
    rw [h.value]
  | reference =>
    refine Builds.mono (.map (g := fun _ => Operand.value T.kind) (builds_stepIndirect 0 hT hop)) rfl (Nat.zero_le _)
      (by omega) ?_
    rintro env m f ⟨v, h, -, rfl⟩
    exact ⟨3, v, h.roomy, by decide, h.reference, h.value, h.range, rfl⟩
  | pointer =>
    refine Builds.mono (.bind builds_load (.bind builds_spill
      (.map (g := fun _ => Operand.value T.kind) (builds_stepIndirect 0 hT hop)))) rfl (by simp [Change.slots])
      (by omega) ?_
    rintro env m f ⟨v, h, hN, rfl⟩
    have hkept : Aliased T N v (m.stored n (address 0) m.stack) := h.stored hn hN
    have haddress : (m.stored n (address 0) m.stack).slot n = address 0 := h.slot_stored hN
    refine .next rfl (.next ⟨address 0, m.stack, ?_, rfl⟩
      ⟨3, v, hkept.roomy, by decide, haddress, hkept.value, h.range, rfl⟩)
    show m.slot 2 :: m.stack = _
    rw [h.pointer]

theorem builds_drop {x : Lowering Operand} {o : Operand} {n' top cost : Nat}
    (hx : Builds n x o n' top cost (c.leaves T N n)) :
    Builds n (do dropValue x; return locals T 0 1 2) (locals T 0 1 2) n' top (cost + 1) (c.makes T N n) := by
  refine Builds.mono (.map (g := fun _ => locals T 0 1 2) (.bind hx builds_pop)) rfl (by omega) (Nat.le_refl _) ?_
  rintro env m f ⟨v, h, hN, rfl⟩
  exact .next ⟨v, h, hN, rfl⟩ ⟨_, _, rfl, rfl⟩

theorem builds_change (hT : T ≠ .bool) (hn : 3 ≤ n) (hc : c.InRange T) :
    Builds n ((Emitter.atDepth (depth + 2)).statement ctx (locals T 0 1 2) (c.statement T)) (locals T 0 1 2) (n + c.slots)
      (if c.slots = 0 then 0 else n + 1) 9 (c.makes T N n) := by
  obtain ⟨target, update⟩ := c
  cases update with
  | assign value =>
    have hassign : Builds n (do
        dropValue (emitAssign (.atDepth (depth + 1)) ctx (locals T 0 1 2) target.expr (T.literal value))
        return locals T 0 1 2) _ _ _ _ (Change.makes T N n ⟨target, .assign value⟩) :=
      builds_drop (builds_assign hn (hc value rfl))
    cases target <;> exact hassign.mono rfl (Nat.le_refl _) (by omega) fun _ _ _ => id
  | step s =>
    have hstep : Builds n (do
        dropValue (emitStep (.atDepth (depth + 1)) ctx (locals T 0 1 2) s.builtin s.op target.expr)
        return locals T 0 1 2) _ _ _ _ (Change.makes T N n ⟨target, .step s⟩) := builds_drop (builds_step hT hn)
    cases s <;> exact hstep

theorem Change.slots_le (c : Change) : c.slots ≤ 1 := by
  unfold slots
  split <;> decide

theorem slotsOf_le (changes : List Change) : slotsOf changes ≤ changes.length := by
  induction changes with
  | nil => exact Nat.le_refl 0
  | cons c rest ih =>
    have hslots : slotsOf (c :: rest) = c.slots + slotsOf rest := List.sum_cons
    have hle := c.slots_le
    rw [List.length_cons]
    omega

theorem builds_changes (hT : T ≠ .bool) (hn : 3 ≤ n) {changes : List Change} (hchanges : ∀ c ∈ changes, c.InRange T) :
    Builds n ((Emitter.atDepth (depth + 2)).statements ctx (locals T 0 1 2) (changes.map (Change.statement T)))
      (locals T 0 1 2) (n + slotsOf changes) (if slotsOf changes = 0 then 0 else n + slotsOf changes) (9 * changes.length)
      (makesAll T N n changes) := by
  induction changes generalizing n with
  | nil => exact .pure
  | cons c rest ih =>
    have hslots : slotsOf (c :: rest) = c.slots + slotsOf rest := List.sum_cons
    have hle := c.slots_le
    obtain ⟨hc, hrest⟩ := List.forall_mem_cons.mp hchanges
    refine Builds.mono (.bind (builds_change hT hn hc) (ih (n := n + c.slots) (by omega) hrest)) (by omega) ?_ ?_
      fun _ _ _ => id
    · split <;> split <;> split <;> omega
    · rw [List.length_cons]
      omega

def declares (v : Int) : Behaviour := fun _ m f =>
  m.Roomy 3 ∧ f = .next (((m.stored 0 (word v) m.stack).stored 1 (address 0) m.stack).stored 2 (address 0) m.stack)

theorem builds_variable (hv : T.Holds v) :
    Builds 0 ((Emitter.atDepth (depth + 2)).statement ctx [] (variableOf T (T.literal v)))
      [("x", { slot := 0, mutable := true, type := .scalar T.kind })] 1 1 2
      (.AndThen (.pushes fun _ => word v) (.stores 0)) := by
  have hstatement : (Emitter.atDepth (depth + 2)).statement ctx [] (variableOf T (T.literal v)) = (do
        let bound ← (do
          let x ← bindWord (.atDepth (depth + 1)) ctx [] (some (T.literal v)) { mutable := true, type := .scalar T.kind }
          return ("x", x))
        return [bound]) := by
    cases T <;> rfl
  rw [hstatement]
  refine Builds.mono (.map (.map (.fresh (.bind (builds_literal hv) (.bind builds_coerce_self (.map
    (builds_store (Nat.lt_succ_self 0)))))))) rfl (by omega) (by omega) ?_
  rintro env m f hf
  cases hf with
  | next h h' => exact .next h (.next rfl h')
  | stop h hf => exact .stop h hf

theorem builds_aliases :
    Builds 1 ((Emitter.atDepth (depth + 2)).statements ctx
        [("x", { slot := 0, mutable := true, type := .scalar T.kind })] (aliases T)) (locals T 0 1 2) 3 3 4
      (.AndThen (.pushes fun _ => address 0) (.AndThen (.stores 1) (.AndThen (.pushes fun _ => address 0) (.stores 2)))) := by
  have hstatements : (Emitter.atDepth (depth + 2)).statements ctx
      [("x", { slot := 0, mutable := true, type := .scalar T.kind })] (aliases T) = (do
        let r ← newSlot
        emitWith .addressOfLocal (UInt64.ofNat 0)
        store r
        let p ← newSlot
        emitWith .addressOfLocal (UInt64.ofNat 0)
        store p
        return locals T 0 r p) := by
    cases T <;> rfl
  rw [hstatements]
  exact Builds.mono (.fresh (.bind builds_addressOf (.bind (builds_store (by decide)) (.fresh (.bind builds_addressOf
    (.map (g := fun _ => locals T 0 1 2) (builds_store (by decide)))))))) rfl (by omega) (by omega) fun _ _ _ => id

theorem builds_declarations (hv : T.Holds v) :
    Builds 0 ((Emitter.atDepth (depth + 2)).statements ctx [] (declarations T (T.literal v))) (locals T 0 1 2) 3 3 6
      (declares v) := by
  refine Builds.mono (.bind (builds_variable hv) builds_aliases) rfl (by omega) (by omega) ?_
  rintro env m f ⟨-, rfl⟩
  exact .next (.next rfl ⟨_, _, rfl, rfl⟩) (.next rfl (.next ⟨_, _, rfl, rfl⟩ (.next rfl ⟨_, _, rfl, rfl⟩)))

theorem aliased_of_declares (hroom : m.Roomy N) (hN : 3 ≤ N) (hv : T.Holds v) :
    Aliased T N v (((m.stored 0 (word v) m.stack).stored 1 (address 0) m.stack).stored 2 (address 0) m.stack) where
  toRoomy := hroom.stored.stored.stored
  three := hN
  value := by
    rw [hroom.stored.stored.slot_stored_ne (by omega) (by omega) (by decide),
      hroom.stored.slot_stored_ne (by omega) (by omega) (by decide), hroom.slot_stored (by omega)]
  range := hv
  reference := by
    rw [hroom.stored.stored.slot_stored_ne (by omega) (by omega) (by decide), hroom.stored.slot_stored (by omega)]
  pointer := hroom.stored.stored.slot_stored (by omega)

def reads (T : Scalar) (N : Nat) : Behaviour := fun _ m f =>
  ∃ v, Aliased T N v m ∧ f = .next { m with stack := word v :: m.stack }

theorem builds_read :
    Builds n ((Emitter.atDepth (depth + 2)).expr ctx (locals T 0 1 2) a.expr) (.value T.kind) n 0 2 (reads T N) := by
  -- Through an address, which is loaded first.
  have hindirect {pointer : Nat} : Builds n (do
      load pointer
      emit .loadIndirect
      return Operand.value T.kind) (.value T.kind) n 0 2 fun _ m f => ∃ v, Aliased T N v m ∧ m.slot pointer = address 0 ∧
        f = .next { m with stack := word v :: m.stack } := by
    refine Builds.mono (.bind builds_load (.map (g := fun _ => Operand.value T.kind) builds_loadIndirect)) rfl (by omega)
      (by omega) ?_
    rintro env m f ⟨v, h, hpointer, rfl⟩
    have hread : m.At (address 0) (word v) := h.value ▸ h.roomy.at_address (by decide)
    refine .next rfl ⟨address 0, word v, m.stack, ?_, hread, rfl⟩
    show m.slot pointer :: m.stack = _
    rw [hpointer]
  rw [expr_eq]
  cases a with
  | name =>
    refine Builds.mono (.map (g := fun _ => Operand.value T.kind) builds_load) rfl (by omega) (by omega) ?_
    rintro env m f ⟨v, h, rfl⟩
    rw [Behaviour.pushes, h.value]
  | reference =>
    refine hindirect.mono rfl (by omega) (by omega) ?_
    rintro env m f ⟨v, h, rfl⟩
    exact ⟨v, h, h.reference, rfl⟩
  | pointer =>
    refine hindirect.mono rfl (by omega) (by omega) ?_
    rintro env m f ⟨v, h, rfl⟩
    exact ⟨v, h, h.pointer, rfl⟩

end
/-! ### Checking and inference -/

def env (T : Scalar) : Check.Env :=
  [("p", { mutable := false, type := { shape := .pointer, kind := T.kind } }),
    ("r", { mutable := true, type := { shape := .reference, kind := T.kind } }),
    ("x", { mutable := true, type := .scalar T.kind })]

section
variable {T : Scalar} {v : Int} {depth : Nat} {a : Access} {changes : List Change} {rest : List Expr} {scope : Scope}
  {site : Site} {cache : ReturnCache}

theorem checked_read :
    (Check.Checker.atDepth (depth + 2)).expr ctx (env T) a.expr cache = .ok (.value T.kind, cache) := by
  cases a <;> cases T <;> rfl

theorem checked_declarations (htemplates : ctx.templates = []) :
    (Check.Checker.atDepth (depth + 2)).block ctx [] (declarations T (T.literal v) ++ rest) cache =
      (Check.Checker.atDepth (depth + 2)).block ctx (env T) rest cache := by
  cases ctx
  cases htemplates
  cases T <;> rfl

theorem checked_change (hT : T ≠ .bool) :
    (Check.Checker.atDepth (depth + 3)).statement ctx (env T) (c.statement T) cache = .ok (env T, cache) := by
  obtain ⟨target, update⟩ := c
  cases update with
  | assign value => cases target <;> cases T <;> rfl
  | step s => cases s <;> cases target <;> cases T <;> first | rfl | contradiction

theorem checked_changes (hT : T ≠ .bool) :
    (Check.Checker.atDepth (depth + 3)).block ctx (env T) (changes.map (Change.statement T) ++ rest) cache =
      (Check.Checker.atDepth (depth + 3)).block ctx (env T) rest cache := by
  induction changes with
  | nil => rfl
  | cons c changes ih =>
    refine Eq.trans ?_ ih
    show ((Check.Checker.atDepth (depth + 3)).statement ctx (env T) (c.statement T) cache >>= fun r =>
      (Check.Checker.atDepth (depth + 3)).statements ctx r.1 (changes.map (Change.statement T) ++ rest) r.2) >>=
        (fun r => .ok ((), r.2)) = _
    rw [checked_change hT]
    rfl

theorem inferred_declarations :
    Check.inferFirstReturn scope I site [] (declarations T (T.literal v) ++ rest) =
      Check.inferFirstReturn scope I site (env T) rest := by
  cases T <;> rfl

theorem inferred_changes :
    Check.inferFirstReturn scope I site (env T) (changes.map (Change.statement T) ++ rest) =
      Check.inferFirstReturn scope I site (env T) rest := by
  induction changes with
  | nil => rfl
  | cons c changes ih =>
    refine Eq.trans ?_ ih
    obtain ⟨target, update⟩ := c
    cases update with
    | assign value => cases target <;> cases T <;> rfl
    | step s => cases s <;> cases target <;> rfl

theorem told_declarations {I : Inferrer} :
    Lower.inferFirstReturn scope I site [] (declarations T (T.literal v) ++ rest) =
      Lower.inferFirstReturn scope I site (locals T 0 0 0) rest := by
  cases T <;> rfl

theorem told_changes {I : Inferrer} :
    Lower.inferFirstReturn scope I site (locals T 0 0 0) (changes.map (Change.statement T) ++ rest) =
      Lower.inferFirstReturn scope I site (locals T 0 0 0) rest := by
  induction changes with
  | nil => rfl
  | cons c changes ih =>
    refine Eq.trans ?_ ih
    obtain ⟨target, update⟩ := c
    cases update with
    | assign value => cases target <;> cases T <;> rfl
    | step s => cases s <;> cases target <;> rfl

theorem inferred_read : (Check.Inferrer.atDepth scope (depth + 2)).operand site (env T) a.expr cache =
    some (.value T.kind, cache) := by
  cases a <;> cases T <;> rfl

theorem told_read : ((Inferrer.atDepth scope (depth + 2)).operand site (locals T 0 0 0) a.expr).run cache =
    some (.ok (.value T.kind), cache) := by
  cases a <;> cases T <;> rfl

end

/-! ### Runs -/

theorem block_append (E : Emitter) (ctx : Context) (locals : Locals) (l l' : List Expr) :
    E.block ctx locals (l ++ l') = E.statements ctx locals l >>= fun inner => E.block ctx inner l' := by
  induction l generalizing locals with
  | nil => rfl
  | cons e l ih =>
    show ((E.statement ctx locals e >>= fun inner => E.statements ctx inner (l ++ l')) >>= _) =
      (E.statement ctx locals e >>= fun inner => E.statements ctx inner l) >>= _
    rw [bind_assoc, bind_assoc]
    exact congrArg _ (funext ih)

section
variable {T : Scalar} {v : Int} {changes : List Change} {result : Access}

def runs (T : Scalar) (N : Nat) (v : Int) (changes : List Change) : Behaviour :=
  .AndThen (declares v) (.AndThen (makesAll T N 3 changes) (.AndThen (reads T N) .returns))

theorem returns_body (result : Access) :
    Returns.containsValue (body T (T.literal v) changes result) = true ∧
      Returns.contains (body T (T.literal v) changes result) = true ∧
      Returns.blockAlways (body T (T.literal v) changes result) = true := by
  have hoccurs (valued : Bool) (l : List Expr) : Returns.occursInList valued (l ++ [.ret result.expr]) = true := by
    induction l with
    | nil => cases valued <;> rfl
    | cons e l ih => rw [List.cons_append, Returns.occursInList, ih, Bool.or_true]
  have hleaves (l : List Expr) : Returns.listLeaves (l ++ [.ret result.expr]) = true := by
    induction l with
    | nil => rfl
    | cons e l ih => rw [List.cons_append, Returns.listLeaves, ih, Bool.or_true]
  unfold body
  rw [← List.append_assoc]
  exact ⟨hoccurs true _, hoccurs false _, hleaves _⟩

theorem builds_body {depth : Nat} {ctx : Context} {D : Scalar} (N : Nat) (hT : T ≠ .bool) (hv : T.Holds v)
    (hchanges : ∀ c ∈ changes, c.InRange T) (htarget : ctx.target = .run (.value D.kind))
    (haccepts : D.kind.accepts T.kind = true) :
    Builds 0 ((Emitter.atDepth (depth + 4)).block ctx [] (body T (T.literal v) changes result)) () (3 + slotsOf changes)
      (3 + slotsOf changes) (9 * changes.length + 9) (runs T N v changes) := by
  simp only [body, block_append]
  refine Builds.mono (.bind (builds_declarations hv) (.bind (builds_changes hT (Nat.le_refl 3) hchanges)
    (Heading.builds_ret builds_read htarget haccepts))) rfl ?_ (by omega) fun _ _ _ => id
  split <;> omega

theorem body_built (h : Heading) (N : Nat) (result : Access) (hT : T ≠ .bool) (hv : T.Holds v)
    (hchanges : ∀ c ∈ changes, c.InRange T) :
    h.Body (body T (T.literal v) changes result) T (3 + slotsOf changes) (3 + slotsOf changes) (9 * changes.length + 9)
      (runs T N v changes) := by
  obtain ⟨depth, hdepth⟩ : ∃ depth, (h.program [] (body T (T.literal v) changes result)).depth = depth + 4 := by
    refine ⟨(h.program [] (body T (T.literal v) changes result)).depth - 4, ?_⟩
    show 2 * (2 * Program.size _ + 8) = 2 * (2 * Program.size _ + 8) - 4 + 4
    omega
  obtain ⟨hvalue, hcontains, halways⟩ := @returns_body T v changes result
  refine ⟨hvalue, hcontains, halways, ?_, ?_, fun D cache haccepts => ?_, fun D haccepts => ?_⟩
  · rw [hdepth]
    have hfirst : (Check.Inferrer.atDepth (h.scope [] (body T (T.literal v) changes result)) (depth + 4)).firstReturn
        { home := "/main", busy := ["/main"] } [] (body T (T.literal v) changes result) [] = some (some T.kind, []) := by
      refine (congrFun (inferred_declarations.trans inferred_changes) _).trans ?_
      exact Heading.recall_bind inferred_read rfl
    exact Heading.recall_bind rfl (Heading.recall_bind hfirst rfl)
  · rw [hdepth]
    have hfirst : (Inferrer.atDepth (h.scope [] (body T (T.literal v) changes result)) (depth + 4)).firstReturn
        { home := "/main", busy := ["/main"] } [] (body T (T.literal v) changes result) [] = some (some T.kind, []) := by
      refine (congrFun (told_declarations.trans told_changes) _).trans ?_
      exact Heading.recall_bind told_read rfl
    exact Heading.recall_bind rfl (Heading.recall_bind hfirst rfl)
  · rw [hdepth]
    refine ((checked_declarations rfl).trans (checked_changes hT)).trans ?_
    exact Heading.checked_ret checked_read rfl haccepts
  · rw [hdepth]
    exact builds_body N hT hv hchanges rfl haccepts

/-- A run with enough slots returns what the changes make of the number. -/
theorem runs_changes {args : Array String} {env : Env} {N : Nat} (hT : T.Holds v)
    (hchanges : ∀ c ∈ changes, c.InRange T) (hN : 3 + slotsOf changes ≤ N) (hm : Starts N args env m) :
    runs T N v changes env m (.halt (.ok (.returned (word (changes.foldl (Change.apply T) v))))) := by
  have hroom : m.Roomy 3 := ⟨Nat.le_trans (by omega) hm.slots, hm.few⟩
  have halias := aliased_of_declares hm.toRoomy (by omega) hT
  obtain ⟨m', hall, halias', hstack, houtput⟩ := halias.changes (Nat.le_refl 3) hchanges hN env
  refine .next ⟨hroom, rfl⟩ (.next hall (.next ⟨_, halias', rfl⟩ ⟨_, m'.stack, rfl, ?_⟩))
  show Flow.halt (.ok (.returned _)) = .halt (.ok { value := some _, output := m'.output })
  rw [houtput, Result.returned]
  exact congrArg (fun o => Flow.halt (.ok { value := some _, output := o })) hm.output.symm

end

/-- Pointers and references are further names of a variable. A program that declares a variable, a reference to it and a
    pointer to it, changes it any number of times in any of these ways, and returns what it reads in any of them, is
    compiled. Its runs return what the changes make of the initial number, one after the other, unless there are so many
    steps through the pointer that the slots that they take are more than a run may have: then no run starts. -/
theorem changes_through_aliases (h : Heading) (T : Scalar) (init : Int) (changes : List Change) (result : Access)
    (hT : T ≠ .bool) (hreturns : h.Returns T) (hinit : T.Holds init) (hchanges : ∀ c ∈ changes, c.InRange T)
    (hlength : changes.length ≤ 2 ^ 55) :
    ∃ m, (h.program [] (body T (T.literal init) changes result)).compile h.options = .ok m ∧ ∀ args,
      if 3 + slotsOf changes ≤ maxSlots then
        EndsWith m args (.returned (word (changes.foldl (Change.apply T) init)))
      else ∀ limit, ∃ count, run m args limit = .error (.tooManySlots count) := by
  obtain ⟨m, hcompile, hruns, hcrowded⟩ := (body_built h (3 + slotsOf changes) result hT hinit hchanges).compile hreturns
    (by rw [capacity]; omega) (Nat.le_refl _)
  refine ⟨m, hcompile, fun args => ?_⟩
  split
  case isTrue hmax =>
    exact hruns hmax args _ fun env m hm => runs_changes hinit hchanges (Nat.le_refl _) hm
  case isFalse hmax =>
    have hslots := slotsOf_le changes
    exact hcrowded (Nat.lt_of_not_le hmax) (by omega) args

def wrapping : List Change :=
  [⟨.pointer, .step .increment⟩, ⟨.reference, .step .decrement⟩, ⟨.name, .step .increment⟩, ⟨.reference, .assign 0⟩,
    ⟨.pointer, .assign 8⟩, ⟨.name, .assign (-5)⟩, ⟨.reference, .step .increment⟩, ⟨.pointer, .step .decrement⟩,
    ⟨.name, .step .decrement⟩]

theorem wrapping_through_aliases :
    (∀ c ∈ wrapping, c.InRange .i32) ∧
      ∃ m, (Heading.plain.program [] (body .i32 (Scalar.i32.literal 2147483647) wrapping .pointer)).compile
          Heading.plain.options = .ok m ∧ ∀ args, EndsWith m args (.returned (word (-6))) := by
  have hrange : ∀ c ∈ wrapping, c.InRange .i32 := by simp [wrapping, Change.InRange, Scalar.Holds]
  obtain ⟨m, hcompile, hruns⟩ := changes_through_aliases .plain .i32 2147483647 wrapping .pointer (by decide) (.inl rfl)
    ⟨by decide, by decide⟩ hrange (by decide)
  refine ⟨hrange, m, hcompile, fun args => ?_⟩
  have hvalue : wrapping.foldl (Change.apply .i32) 2147483647 = -6 := by decide
  have hend := hruns args
  rwa [if_pos (by decide), hvalue] at hend

/-- A number that is not in the range of its kind passes the check and is refused when it is lowered. And with too many steps
    through the pointer no run starts. -/
theorem refused_or_crowded :
    (Heading.plain.program [] (body .i32 (.literal [] (.int 2147483648 .i32)) [] .name)).check "/main" ["io_out"] [] =
        .ok () ∧
      (Heading.plain.program [] (body .i32 (.literal [] (.int 2147483648 .i32)) [] .name)).compile Heading.plain.options =
        .error (.lowering .literalRange) ∧
      ∃ m, (Heading.plain.program [] (body .i32 (Scalar.i32.literal 0)
          (List.replicate (2 ^ 20) ⟨.pointer, .step .increment⟩) .name)).compile Heading.plain.options = .ok m ∧
        ∀ args limit, ∃ count, run m args limit = .error (.tooManySlots count) := by
  refine ⟨rfl, rfl, ?_⟩
  have hrange : ∀ c ∈ List.replicate (2 ^ 20) (⟨.pointer, .step .increment⟩ : Change), c.InRange .i32 := fun c hc =>
    (List.mem_replicate.mp hc).2 ▸ nofun
  have hslots : slotsOf (List.replicate (2 ^ 20) ⟨.pointer, .step .increment⟩) = 2 ^ 20 := by
    rw [slotsOf, List.map_replicate, List.sum_replicate_nat]
    rfl
  have hbuilt := body_built (T := .i32) (v := 0) .plain 0 .name (by decide) ⟨by decide, by decide⟩ hrange
  rw [hslots, List.length_replicate] at hbuilt
  obtain ⟨m, hcompile, -, hcrowded⟩ := hbuilt.compile (.inl rfl) (by decide) (Nat.le_refl _)
  exact ⟨m, hcompile, hcrowded (by decide) (by decide)⟩

end FlatCode.Aliasing
