import FlatCode.Proofs.Lockstep.Entry
import FlatCode.Proofs.Safety

/-! Where the jumps of lowered code lead. All targets are in the code or at its end, and a conditional jump leads forward.
    If no call of the program is lowered with a loop, all jumps lead forward, and a run takes no more steps than there are
    instructions. -/

namespace FlatCode

/-! ### Pieces -/

/-- A jump `i` at position `n` leads out of a piece, to `target`, or to a position up to `stop`; if it is conditional or
    the piece is straight, that position is after `n`. -/
def Instruction.JumpsWithin (i : Instruction) (n target stop : Nat) (straight : Bool) : Prop :=
  ∃ t, i = .leadingTo i.op t ∧
    (i.op = .jump ∧ t = target ∨ t ≤ stop ∧ (i.op = .jumpIfZero ∨ straight = true → n < t))

namespace Instruction.JumpsWithin
variable {i : Instruction} {n n' target stop stop' : Nat} {straight straight' : Bool}

theorem mono (h : i.JumpsWithin n target stop straight) (hn : n' = n) (hstop : stop ≤ stop')
    (hs : straight' = true → straight = true) : i.JumpsWithin n' target stop' straight' := by
  subst hn
  obtain ⟨t, hi, ⟨hop, ht⟩ | ⟨ht, hforward⟩⟩ := h
  · exact ⟨t, hi, .inl ⟨hop, ht⟩⟩
  · exact ⟨t, hi, .inr ⟨Nat.le_trans ht hstop, fun h => hforward (h.imp_right hs)⟩⟩

/-- Where the exits of a piece lead to its end, all jumps stay in it. -/
theorem closed (h : i.JumpsWithin n stop stop straight) (hn : n < stop) :
    ∃ t, i = .leadingTo i.op t ∧ t ≤ stop ∧ (i.op = .jumpIfZero ∨ straight = true → n < t) := by
  obtain ⟨t, hi, ⟨-, rfl⟩ | ht⟩ := h
  · exact ⟨t, hi, Nat.le_refl t, fun _ => hn⟩
  · exact ⟨t, hi, ht⟩

theorem forward {op : Opcode} {t : Nat} (hn : n < t) (ht : t ≤ stop) :
    (leadingTo op t).JumpsWithin n target stop straight := ⟨t, rfl, .inr ⟨ht, fun _ => hn⟩⟩

end Instruction.JumpsWithin

variable {α : Type} {r : List α} {j : Nat} {a : α}

theorem getElem?_append_inv {l : List α} (h : (l ++ r)[j]? = some a) :
    l[j]? = some a ∨ ∃ j', j = l.length + j' ∧ r[j']? = some a := by
  rw [List.getElem?_append] at h
  split at h
  · exact .inl h
  · exact .inr ⟨j - l.length, by omega, h⟩

theorem getElem?_cons_inv {b : α} (h : (b :: r)[j]? = some a) : j = 0 ∧ a = b ∨ ∃ j', j = j' + 1 ∧ r[j']? = some a := by
  cases j with
  | zero => exact .inl ⟨rfl, (Option.some.inj h).symm⟩
  | succ j => exact .inr ⟨j, rfl, h⟩

namespace Piece
open Instruction

/-- The jumps of a piece that stands at position `k`. -/
theorem jumps (p : Piece) {target k j : Nat} {i : Instruction} (h : (p.code target k)[j]? = some i)
    (hjump : i.op.isJump = true) : i.JumpsWithin (k + j) target (k + p.size) p.isStraight := by
  induction p generalizing target k j with
  | nop => cases h
  | op i' plain =>
    rcases getElem?_cons_inv h with ⟨-, rfl⟩ | ⟨j', -, h⟩
    · cases plain.symm.trans hjump
    · cases h
  | seq a b iha ihb =>
    rcases getElem?_append_inv h with ha | ⟨j', hj, hb⟩
    · exact (iha ha).mono rfl (by simp only [size]; omega) (by simp +contextual [isStraight])
    · rw [length_code] at hj
      exact (ihb hb).mono (by omega) (by simp only [size]; omega) (by simp +contextual [isStraight])
  | branch yes no ihy ihn =>
    rcases getElem?_append_inv h with hy | ⟨j', hj, hn⟩
    · rcases getElem?_cons_inv hy with ⟨hj, rfl⟩ | ⟨j', hj, hy⟩
      · exact .forward (by omega) (by simp only [size]; omega)
      · exact (ihy hy).mono (by omega) (by simp only [size]; omega) (by simp +contextual [isStraight])
    · rw [List.length_cons, length_code] at hj
      rcases getElem?_cons_inv hn with ⟨hj', rfl⟩ | ⟨j'', hj', hn⟩
      · exact .forward (by omega) (by simp only [size]; omega)
      · exact (ihn hn).mono (by omega) (by simp only [size]; omega) (by simp +contextual [isStraight])
  | guard body ih =>
    rcases getElem?_cons_inv h with ⟨hj, rfl⟩ | ⟨j', hj, hb⟩
    · exact .forward (by omega) (by simp only [size]; omega)
    · exact (ih hb).mono (by omega) (by simp only [size]; omega) id
  | loop cond body ihc ihb =>
    rcases getElem?_append_inv h with h' | ⟨j', hj, hback⟩
    · rcases getElem?_append_inv h' with hc | ⟨j', hj, hb⟩
      · exact (ihc hc).mono rfl (by simp only [size]; omega) (by simp [isStraight])
      · rw [length_code] at hj
        rcases getElem?_cons_inv hb with ⟨hj', rfl⟩ | ⟨j'', hj', hb⟩
        · exact .forward (by omega) (by simp only [size]; omega)
        · exact (ihb hb).mono (by omega) (by simp only [size]; omega) (by simp [isStraight])
    · -- The jump back is the only one that does not lead forward, and it is not conditional.
      rcases getElem?_cons_inv hback with ⟨-, rfl⟩ | ⟨j'', -, hback⟩
      · exact ⟨k, rfl, .inr ⟨Nat.le_add_right .., by simp [leadingTo, isStraight]⟩⟩
      · cases hback
  | exit waiting =>
    rcases getElem?_cons_inv h with ⟨-, rfl⟩ | ⟨j', -, h⟩
    · exact ⟨target, rfl, .inl ⟨rfl, rfl⟩⟩
    · cases h
  | scope body ih =>
    have hj := (List.getElem?_eq_some_iff.mp h).1
    rw [length_code] at hj
    obtain ⟨t, hi, ht⟩ := (ih h).closed (Nat.add_lt_add_left hj k)
    exact ⟨t, hi, .inr ht⟩
  | expansion callee args body iha ihb =>
    rcases getElem?_append_inv h with ha | ⟨j', hj, hb⟩
    · exact (iha ha).mono rfl (by simp only [size]; omega) (by simp +contextual [isStraight])
    · have hlt := (List.getElem?_eq_some_iff.mp hb).1
      rw [length_code] at hlt hj
      obtain ⟨t, hi, ht⟩ := (ihb hb).closed (Nat.add_lt_add_left hlt _)
      exact JumpsWithin.mono ⟨t, hi, .inr ht⟩ (by omega) (by simp only [size]; omega) (by simp +contextual [isStraight])

end Piece

namespace Lower
open Machine Stateful

/-! ### Lowered code -/

variable {i : Instruction} {n : Nat}

/-- The code of a piece without exits stays in the code, and jumps forward if it is conditional or straight. -/
theorem jumps_of_extends {s : State} {q : Piece} (h : Extends {} q s) (hexits : q.exits 0 = [])
    (hsize : s.code.size < 2 ^ 64) (hi : s.code[n]? = some i) (hjump : i.op.isJump = true) :
    i.imm.toNat ≤ s.code.size ∧ (i.op = .jumpIfZero ∨ q.isStraight = true → n < i.imm.toNat) := by
  have hq : s.code.size = q.size := by simpa using h.size
  have hcode : s.code.toList = q.code q.size 0 := (h.code.trans (List.nil_append _)).trans (Piece.code_of_exits hexits _ _)
  rw [← Array.getElem?_toList, hcode] at hi
  have hn := (List.getElem?_eq_some_iff.mp hi).1
  rw [Piece.length_code] at hn
  have hjumps := q.jumps hi hjump
  rw [Nat.zero_add, Nat.zero_add] at hjumps
  obtain ⟨t, hleads, ht, hforward⟩ := hjumps.closed hn
  have hnat : i.imm.toNat = t := by
    rw [hleads]
    exact UInt64.toNat_ofNat_of_lt' (Nat.lt_of_le_of_lt ht (hq ▸ hsize))
  rw [hnat, hq]
  exact ⟨ht, hforward⟩

section
variable {p : Program} {depth : Nat} {entry : String} {defaults entryDefaults : List String} {l : Lowered}

/-- The jumps of a lowered entry stay in its code, and the conditional ones lead forward. -/
theorem jumps_of_lowered (h : p.loweredTo depth entry defaults entryDefaults = .ok l) (hi : l.state.code[n]? = some i)
    (hjump : i.op.isJump = true) : i.imm.toNat ≤ l.state.code.size ∧ (i.op = .jumpIfZero → n < i.imm.toNat) := by
  obtain ⟨q, hq, hexits⟩ := extends_of_lowered h
  obtain ⟨-, -, -, -, -, -, hsize, -⟩ := lowered_inv h
  obtain ⟨hin, hforward⟩ := jumps_of_extends hq (hexits 0) (Nat.lt_trans hsize (by decide)) hi hjump
  exact ⟨hin, fun hop => hforward (.inl hop)⟩

/-- Without calls that take a loop, the code is straight. -/
theorem straight_of_lowered (h : p.loweredTo depth entry defaults entryDefaults = .ok l)
    (hcalls : ∀ name ∈ p.callNames, name ∉ loopNames) : ∃ q, Extends {} q l.state ∧ q.isStraight = true := by
  obtain ⟨scope, defaults', effects, hscope, hentry, hrun, -⟩ := lowered_inv h
  have hdefinitions := Scope.definitions_of_build hscope
  let g : Pace := { stops := (· = .tooDeep), mayLoop := False }
  let P (e : Expr) : Prop := ∀ name, e.callName? = some name → name ∉ loopNames
  have hP : ∀ s ∈ p.within, P s := fun s hs name hname => hcalls name (List.mem_filterMap.mpr ⟨s, hs, hname⟩)
  have huniform : Uniform g scope scope P := {
    stops := rfl
    alike := fun _ => .refl
    loops := fun he hbinding hname => he _ (by simp [Expr.callName?, hbinding]) hname
    definitions := fun d hd => Program.all_of_within hP (hdefinitions ▸ hd) fun r _ name hname => by
      obtain rfl : "return" = name := Option.some.inj hname
      decide }
  have hd := Scope.mem_of_get? hentry
  obtain ⟨-, hbody⟩ := huniform.definitions _ hd
  have hE := Emitter.handles_atDepth (huniform.coverage depth 0) depth 0
  have hlockstep : Lockstep g
      (lowerEntry (.atDepth depth) (entryContext depth scope l.entry entry defaults' effects) l.entry) _ fun _ => True :=
    lockstep_lowerEntry hE (huniform.returns hd depth 0) (fun _ _ => .refl) fun _ e he => ⟨rfl, rfl, hbody e he⟩
  exact (hlockstep.straight ⟨id, fun _ => trivial⟩).run hrun

theorem forward_of_lowered (h : p.loweredTo depth entry defaults entryDefaults = .ok l)
    (hcalls : ∀ name ∈ p.callNames, name ∉ loopNames) (hi : l.state.code[n]? = some i)
    (hjump : i.op.isJump = true) : n < i.imm.toNat := by
  obtain ⟨q, hq, hstraight⟩ := straight_of_lowered h hcalls
  obtain ⟨q', hq', hexits'⟩ := extends_of_lowered h
  obtain ⟨-, -, -, -, -, -, hsize, -⟩ := lowered_inv h
  -- The exits that are noted in the end are those of any piece that the code has grown by.
  have hexits : q.exits 0 = [] := by
    have := hq.exits.symm.trans hq'.exits
    simpa [hexits'] using this
  exact (jumps_of_extends hq hexits (Nat.lt_trans hsize (by decide)) hi hjump).2 (.inr hstraight)

end
end Lower

/-! ### Runs -/

namespace Machine

variable {i : Instruction} {trace : List Nat} {hi lo : Nat}

section
variable {env : Env} {s t : State}

/-- No instruction exceeds the limit by itself. -/
theorem ne_stepLimit_of_step {f : Fault} (h : step env i s = .fault f) : f ≠ .stepLimit := by
  rintro rfl
  unfold step at h
  cases ho : i.op.operation <;> rw [ho] at h <;>
    simp only [perform, State.pop, State.push, State.jumpTo, State.atAddress, State.write] at h <;> grind

variable (hforward : ∀ (n : Nat) (i : Instruction), env.code[n]? = some i → i.op.isJump = true → n < i.imm.toNat)
include hforward

theorem pc_lt_of_continue (hi : env.code[s.pc]? = some i) (h : step env i s = .continue t) : s.pc < t.pc := by
  rcases pc_of_continue h with hnext | ⟨hjump, htarget⟩
  · omega
  · exact htarget ▸ hforward s.pc i hi hjump

/-- Each step leads on by at least one instruction. -/
theorem Steps.forward (h : Steps env lo hi trace s t) : s.pc + trace.length ≤ t.pc := by
  induction h with
  | refl => exact Nat.le_refl _
  | cons _ _ code step _ ih =>
    have := pc_lt_of_continue hforward code step
    simp only [List.length_cons]
    omega

/-- A run with as many steps as there are instructions left comes to an end. -/
theorem runFrom_ne_stepLimit {limit : Nat} (hlimit : env.code.size ≤ s.pc + limit) :
    runFrom env limit s ≠ .error .stepLimit := by
  induction limit generalizing s with
  | zero =>
    have hnone : env.code[s.pc]? = none := Array.getElem?_eq_none hlimit
    rw [runFrom, hnone]
    simp
  | succ limit ih =>
    rw [runFrom]
    split
    · simp
    case h_2 i hi =>
      dsimp only
      split
      case h_1 t hstep =>
        have := pc_lt_of_continue hforward hi hstep
        exact ih (by omega)
      case h_2 => simp
      case h_3 f hfault => exact fun h => ne_stepLimit_of_step hfault (Except.error.inj h)

end

/-- A step leads to an instruction or to the end, if the jumps do. -/
theorem Steps.pc_le_size {env : Env} {s t : State} (h : Steps env lo hi trace s t) (hs : s.pc = 0)
    (hwithin : ∀ (n : Nat) (i : Instruction), env.code[n]? = some i → i.op.isJump = true → i.imm.toNat ≤ env.code.size) :
    t.pc ≤ env.code.size := by
  rcases h.last with rfl | ⟨u, i, hi, hstep⟩
  · omega
  · have hu := lt_size_of_getElem? hi
    rcases pc_of_continue hstep with hnext | ⟨hjump, htarget⟩
    · omega
    · exact htarget ▸ hwithin u.pc i hi hjump

/-- The jumps of lowered code. A module has one function, where runs start, and no text twice. A conditional jump leads
    forward, and any jump into the code or to its end. If no call of the program is lowered with a loop, every jump leads
    forward, and no run executes more instructions than there are. -/
theorem jumps_of_lower {p : Program} {depth : Nat} {entry : String} {defaults entryDefaults : List String}
    {l : Lower.Lowered} (h : p.loweredTo depth entry defaults entryDefaults = .ok l) :
    ∃ f m, m = l.codeModule ∧ m.functions = [f] ∧ m.entry = 0 ∧ m.strings.toList.Nodup ∧
      (∀ (n : Nat) (i : Instruction), f.code[n]? = some i →
        (i.op = .jumpIfZero → n < i.imm.toNat ∧ i.imm.toNat ≤ f.code.size) ∧
          (i.op = .jump → i.imm.toNat ≤ f.code.size)) ∧
      ((∀ name ∈ p.callNames, name ∉ ["repeat", "loop", "while", "for", "pow", "map"]) →
        (∀ (n : Nat) (i : Instruction), f.code[n]? = some i → i.op.isJump = true → n < i.imm.toNat) ∧
          ∀ args,
            (∀ trace t, Steps { code := f.code, strings := m.strings, args } 0 f.code.size trace
                { slots := Array.replicate (slotCount f.code) 0 } t →
              trace.length ≤ m.instructionCount ∧ (t.pc < f.code.size → trace.length < m.instructionCount)) ∧
            ∀ limit, m.instructionCount ≤ limit → run m args limit ≠ .error .stepLimit) := by
  obtain ⟨q, hq, -⟩ := Lower.extends_of_lowered h
  have hwithin (n : Nat) (i : Instruction) (hi : l.state.code[n]? = some i) (hjump : i.op.isJump = true) :=
    Lower.jumps_of_lowered h hi hjump
  have hcount : l.codeModule.instructionCount = l.state.code.size := Nat.add_zero _
  refine ⟨_, _, rfl, rfl, rfl, hq.distinct List.nodup_nil, fun n i hi => ⟨fun hop => ?_, fun hop => ?_⟩, fun hcalls => ?_⟩
  · obtain ⟨hin, hforward⟩ := hwithin n i hi (by rw [hop]; rfl)
    exact ⟨hforward hop, hin⟩
  · exact (hwithin n i hi (by rw [hop]; rfl)).1
  · have hforward (n : Nat) (i : Instruction) (hi : l.state.code[n]? = some i) (hjump : i.op.isJump = true) :=
      Lower.forward_of_lowered h hcalls hi hjump
    refine ⟨hforward, fun args => ⟨fun trace t hsteps => ?_, fun limit hlimit => ?_⟩⟩
    · have hlength := hsteps.forward hforward
      have hend := hsteps.pc_le_size rfl fun n i hi hjump => (hwithin n i hi hjump).1
      simp only [Nat.zero_add] at hlength
      rw [hcount]
      exact ⟨Nat.le_trans hlength hend, Nat.lt_of_le_of_lt hlength⟩
    · rw [run_codeModule]
      split
      · nofun
      · exact runFrom_ne_stepLimit hforward (by simpa [loweredEnv, loweredStart, hcount] using hlimit)

def choosing : Program := {
  definitions := [
    { path := "/sign"
      transforms := [{ name := "return", templateArgs := ["i32"] }]
      parameters := [.call [{ name := "i32" }] { name := "x", isBinding := true }]
      statements := [.ifElse (.plainCall "less_than" [.ident "x", .int32 0]) [.ret (.int32 0)] [.ret (.int32 1)]] },
    { path := "/main"
      transforms := [{ name := "return", templateArgs := ["void"] }, { name := "effects", arguments := ["io_out"] }]
      statements := [.ifElse (.plainCall "equal" [.plainCall "sign" [.int32 5], .int32 1])
        [.plainCall "print_line" [.string "up"]] [.plainCall "print_line" [.string "down"]]] }] }

theorem choosing_lowers : (choosing.lowered "/main" [] []).toBool = true := by decide +kernel

/-- No call of it is lowered with a loop, so its runs are short. -/
theorem choosing_runs_forward : ∃ l, choosing.lowered "/main" [] [] = .ok l ∧
    (∀ name ∈ choosing.callNames, name ∉ ["repeat", "loop", "while", "for", "pow", "map"]) ∧
    ∀ args limit, l.codeModule.instructionCount ≤ limit → run l.codeModule args limit ≠ .error .stepLimit := by
  have hok := choosing_lowers
  have hcalls : ∀ name ∈ choosing.callNames, name ∉ ["repeat", "loop", "while", "for", "pow", "map"] := by
    decide +kernel
  cases h : choosing.lowered "/main" [] [] with
  | error e =>
    rw [h] at hok
    exact nomatch hok
  | ok l =>
    obtain ⟨f, _, rfl, -, -, -, -, hforward⟩ := jumps_of_lower h
    exact ⟨l, rfl, hcalls, fun args => ((hforward hcalls).2 args).2⟩

end Machine
end FlatCode
