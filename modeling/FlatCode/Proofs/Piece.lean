import FlatCode.Lower.Basic

/-! Structured code. Lowering writes its jumps into one flat array, but only in a few nested patterns: branches,
    guards, loops, and exits to the end of an enclosing piece. A `Piece` keeps that nesting, and `Piece.code` lays it
    out at a position of the array. -/

namespace FlatCode

def Instruction.leadingTo (op : Opcode) (target : Nat) : Instruction := { op, imm := UInt64.ofNat target }

/-- A piece of structured code. -/
inductive Piece where
  | nop
  /-- An instruction that does not jump. -/
  | op (i : Instruction) (plain : i.op.isJump = false)
  | seq (a b : Piece)
  /-- Pops a word and runs `yes` if it is not zero, else `no`. -/
  | branch (yes no : Piece)
  /-- Pops a word and runs `body` if it is not zero. -/
  | guard (body : Piece)
  /-- Runs `cond`, pops the word it leaves, and as long as that is not zero runs `body` and starts again. -/
  | loop (cond body : Piece)
  /-- Leaves the enclosing scope, with the given number of operands waiting on the stack. -/
  | exit (waiting : Nat)
  /-- The exits in `body` lead to its end. -/
  | scope (body : Piece)
  /-- The expansion of a definition: its arguments, and its body, which is a scope. -/
  | expansion (callee : String) (args body : Piece)

namespace Piece
open Lower (Exit Expansion)

def size : Piece → Nat
  | nop => 0
  | op .. => 1
  | seq a b => a.size + b.size
  | branch yes no => yes.size + no.size + 2
  | guard body => body.size + 1
  | loop cond body => cond.size + body.size + 2
  | exit _ => 1
  | scope body => body.size
  | expansion _ args body => args.size + body.size

/-- The instructions of a piece that stands at position `k`; the exits that leave it lead to `target`. -/
def code : Piece → (target k : Nat) → List Instruction
  | nop, _, _ => []
  | op i _, _, _ => [i]
  | seq a b, target, k => a.code target k ++ b.code target (k + a.size)
  | branch yes no, target, k =>
    .leadingTo .jumpIfZero (k + yes.size + 2) :: yes.code target (k + 1)
      ++ .leadingTo .jump (k + yes.size + no.size + 2) :: no.code target (k + yes.size + 2)
  | guard body, target, k => .leadingTo .jumpIfZero (k + body.size + 1) :: body.code target (k + 1)
  | loop cond body, target, k =>
    cond.code target k ++ .leadingTo .jumpIfZero (k + cond.size + body.size + 2)
      :: body.code target (k + cond.size + 1) ++ [.leadingTo .jump k]
  | exit _, target, _ => [.leadingTo .jump target]
  | scope body, _, k => body.code (k + body.size) k
  | expansion _ args body, target, k =>
    args.code target k ++ body.code (k + args.size + body.size) (k + args.size)

/-- The exits that leave a piece at position `k`, latest first. -/
def exits : Piece → (k : Nat) → List Exit
  | nop, _ => []
  | op .., _ => []
  | seq a b, k => b.exits (k + a.size) ++ a.exits k
  | branch yes no, k => no.exits (k + yes.size + 2) ++ yes.exits (k + 1)
  | guard body, k => body.exits (k + 1)
  | loop cond body, k => body.exits (k + cond.size + 1) ++ cond.exits k
  | exit waiting, k => [{ position := k, waiting }]
  | scope _, _ => []
  | expansion _ args _, k => args.exits k

/-- The expansions in a piece at position `k`, latest first. -/
def expansions : Piece → (k : Nat) → List Expansion
  | nop, _ => []
  | op .., _ => []
  | seq a b, k => b.expansions (k + a.size) ++ a.expansions k
  | branch yes no, k => no.expansions (k + yes.size + 2) ++ yes.expansions (k + 1)
  | guard body, k => body.expansions (k + 1)
  | loop cond body, k => body.expansions (k + cond.size + 1) ++ cond.expansions k
  | exit _, _ => []
  | scope body, k => body.expansions k
  | expansion callee args body, k =>
    { callee, start := k, stop := k + args.size + body.size, exits := body.exits (k + args.size) }
      :: (body.expansions (k + args.size) ++ args.expansions k)

@[simp] theorem length_code (p : Piece) (target k : Nat) : (p.code target k).length = p.size := by
  induction p generalizing target k <;> simp_all [code, size] <;> omega

/-! ### Filling in exits -/

def fill (target position : Nat) (l : List Instruction) : List Instruction :=
  l.modify position fun i => { i with imm := UInt64.ofNat target }

variable {l r : List Instruction} {k : Nat}

theorem fill_leadingTo (op : Opcode) (old new : Nat) (h : l.length = k) :
    fill new k (l ++ .leadingTo op old :: r) = l ++ .leadingTo op new :: r := by
  subst h
  induction l with
  | nil => rfl
  | cons j l ih => exact congrArg (j :: ·) ih

def fillAll (target : Nat) (exits : List Exit) (l : List Instruction) : List Instruction :=
  exits.foldl (fun l x => fill target x.position l) l

theorem fillAll_append (target : Nat) (xs ys : List Exit) (l : List Instruction) :
    fillAll target (xs ++ ys) l = fillAll target ys (fillAll target xs l) := List.foldl_append

/-- Filling in the exits of a piece in the middle of some code gives the piece with the new target. -/
theorem fillAll_exits (p : Piece) (old new : Nat) (h : l.length = k) :
    fillAll new (p.exits k) (l ++ (p.code old k ++ r)) = l ++ (p.code new k ++ r) := by
  induction p generalizing k l r with
  | nop => rfl
  | op => rfl
  | seq a b iha ihb =>
    have hb := ihb (l := l ++ a.code old k) (r := r) (k := k + a.size) (by simp [h])
    have ha := iha (r := b.code new (k + a.size) ++ r) h
    simp only [List.append_assoc] at hb
    simp only [exits, code, fillAll_append, List.append_assoc, hb, ha]
  | branch yes no ihy ihn =>
    have hn := ihn (l := l ++ .leadingTo .jumpIfZero (k + yes.size + 2) :: yes.code old (k + 1)
      ++ [.leadingTo .jump (k + yes.size + no.size + 2)]) (r := r) (k := k + yes.size + 2) (by simp [h]; omega)
    have hy := ihy (l := l ++ [.leadingTo .jumpIfZero (k + yes.size + 2)])
      (r := .leadingTo .jump (k + yes.size + no.size + 2) :: no.code new (k + yes.size + 2) ++ r)
      (k := k + 1) (by simp [h])
    simp only [List.append_assoc, List.cons_append, List.nil_append] at hn hy
    simp only [exits, code, fillAll_append, List.append_assoc, List.cons_append, hn, hy]
  | guard body ih =>
    have hb := ih (l := l ++ [.leadingTo .jumpIfZero (k + body.size + 1)]) (r := r) (k := k + 1) (by simp [h])
    simp only [List.append_assoc, List.cons_append, List.nil_append] at hb
    simp only [exits, code, List.cons_append, hb]
  | loop cond body ihc ihb =>
    have hb := ihb (l := l ++ cond.code old k ++ [.leadingTo .jumpIfZero (k + cond.size + body.size + 2)])
      (r := .leadingTo .jump k :: r) (k := k + cond.size + 1) (by simp [h]; omega)
    have hc := ihc (r := .leadingTo .jumpIfZero (k + cond.size + body.size + 2)
      :: (body.code new (k + cond.size + 1) ++ .leadingTo .jump k :: r)) h
    simp only [List.append_assoc, List.cons_append, List.nil_append] at hb
    simp only [exits, code, fillAll_append, List.append_assoc, List.cons_append, List.nil_append, hb, hc]
  | exit waiting => exact fill_leadingTo .jump old new h
  | scope body => rfl
  | expansion callee args body ih =>
    have ha := ih (r := body.code (k + args.size + body.size) (k + args.size) ++ r) h
    simp only [exits, code, List.append_assoc, ha]

/-- A piece without exits is laid out alike whatever its exits lead to. -/
theorem code_of_exits {p : Piece} {k : Nat} (h : p.exits k = []) (target target' : Nat) :
    p.code target k = p.code target' k := by
  have hfill := p.fillAll_exits target target' (l := List.replicate k { op := .pop }) (r := []) List.length_replicate
  rw [h, List.append_nil, List.append_nil] at hfill
  exact List.append_cancel_left hfill

end Piece
end FlatCode
