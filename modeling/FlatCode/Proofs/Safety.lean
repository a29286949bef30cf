import FlatCode.Program.Build
import FlatCode.Proofs.Layout.Entry

/-! Lowered code does not go wrong. Whatever the program, the arguments and the limit, a run of its module never lacks a
    word on the stack, never jumps out of the code, never prints a string that is not in the table, and never runs off
    the end if it returns nothing. -/

namespace FlatCode.Machine
open Lower

variable {args : Array String} {f : Fault} {trace : List Nat} {l : Lowered} {hi limit lo : Nat} {q : Piece}

section
variable {env : Env} {s t : State}

/-! ### The end of the code -/

/-- Where an instruction leads: to the next one, or to its target if it jumps. -/
theorem pc_of_continue {i : Instruction} (h : step env i s = .continue t) :
    t.pc = s.pc + 1 ∨ i.op.isJump = true ∧ t.pc = i.imm.toNat := by
  obtain ⟨op, imm⟩ := i
  by_cases plain : op.isJump = false
  · exact .inl (pc_of_step plain h)
  · cases op with
    | jump =>
      simp only [step, Opcode.operation, perform, State.jumpTo] at h
      split at h <;> cases h
      exact .inr ⟨rfl, rfl⟩
    | jumpIfZero =>
      simp only [step, Opcode.operation, perform, State.pop, State.jumpTo] at h
      split at h
      · cases h
      · split at h <;> cases h
        split
        · exact .inr ⟨rfl, rfl⟩
        · exact .inl rfl
    | _ => exact absurd rfl plain

theorem Steps.last (h : Steps env lo hi trace s t) :
    t = s ∨ ∃ u i, env.code[u.pc]? = some i ∧ step env i u = .continue t := by
  induction h with
  | refl => exact .inl rfl
  | cons _ _ code step _ ih =>
    rcases ih with rfl | h
    · exact .inr ⟨_, _, code, step⟩
    · exact .inr h

/-- A run does not come to the end of code that ends with a return and has no jump there. -/
theorem Steps.ne_end (h : Steps env lo hi trace s t) (hs : s.pc = 0)
    (hend : reachesEnd env.code = false) : t.pc ≠ env.code.size := by
  intro ht
  simp only [reachesEnd, Bool.or_eq_false_iff, Bool.not_eq_false', Array.any_eq_false, Bool.and_eq_true,
    beq_iff_eq, not_and] at hend
  obtain ⟨hlast, hjumps⟩ := hend
  obtain ⟨i, hi, hret⟩ : ∃ i, env.code.back? = some i ∧ i.op.isReturn = true := by
    cases hback : env.code.back? with
    | none => rw [hback] at hlast; exact nomatch hlast
    | some i => rw [hback] at hlast; exact ⟨i, rfl, hlast⟩
  rw [Array.back?_eq_getElem?] at hi
  have hsize := lt_size_of_getElem? hi
  -- The end is reached from the last instruction, which returns, or by a jump, none of which leads there.
  rcases h.last with rfl | ⟨u, j, hj, hstep⟩
  · omega
  · rcases pc_of_continue hstep with hnext | ⟨hjump, htarget⟩
    · have hpos : u.pc = env.code.size - 1 := by omega
      rw [hpos, hi] at hj
      cases hj
      rw [isReturn_of_continue hstep] at hret
      exact nomatch hret
    · obtain ⟨hlt, rfl⟩ := Array.getElem?_eq_some_iff.mp hj
      exact hjumps u.pc hlt hjump (htarget.symm.trans ht)

/-! ### Whole runs -/

/-- A run of a balanced piece that stands at the start of the code, without exits: it ends with a result or a fault of
    the data, or comes to the end of the piece, or is cut off by the limit. -/
theorem runFrom_balanced (env : Env) {s : State} {tail : List Instruction} (hb : q.Balanced env.strings.size none 0 0)
    (hcode : env.code.toList = q.code 0 0 ++ tail) (hsize : env.code.size < 2 ^ 64) (hs : s.pc = 0) (limit : Nat) :
    (∃ r, runFrom env limit s = .ok r) ∨ (∃ f, runFrom env limit s = .error f ∧ (f.isData = true ∨ f = .stepLimit)) ∨
      ∃ trace t limit', exec env (limit + 1) q s = .next t ∧ Steps env 0 q.size trace s t ∧ t.pc = q.size ∧
        runFrom env limit s = runFrom env limit' t := by
  have hend : 0 + q.size ≤ env.code.size := (Nat.zero_add _).symm ▸ size_le_of_toList hcode
  -- With more fuel than the limit, a loop that runs out of fuel has gone past the limit.
  have hruns := exec_runs q (limit + 1) hsize hend (Nat.zero_le _) (.of_toList hcode) hs
  have hkeeps : (exec env (limit + 1) q s).Keeps False none q.waits s.stack 0 :=
    exec_keeps hb (Nat.le_refl _) (by simp) (List.nil_append _).symm ⟨Nat.le_refl 0, by simp⟩
  have hcut (h : runFrom env limit s = .error .stepLimit) :
      ∃ f, runFrom env limit s = .error f ∧ (f.isData = true ∨ f = .stepLimit) := ⟨_, h, .inr rfl⟩
  cases hexec : exec env (limit + 1) q s with
  | next t =>
    rw [hexec] at hruns
    obtain ⟨hpc, trace, hsteps, -⟩ := hruns
    rcases Nat.lt_or_ge limit trace.length with hlt | hge
    · exact .inr (.inl (hcut (runFrom_of_lt hsteps hlt)))
    · obtain ⟨n, rfl⟩ := Nat.exists_eq_add_of_le hge
      simp only [region, Nat.zero_add] at hsteps hpc
      exact .inr (.inr ⟨trace, t, n, rfl, hsteps, hpc, runFrom_steps hsteps n⟩)
  | exit waiting t =>
    rw [hexec] at hkeeps
    obtain ⟨-, -, b, -, hnone, -⟩ := hkeeps
    cases hnone
  | halt r =>
    rw [hexec] at hruns hkeeps
    obtain ⟨count, hless, hmore⟩ := hruns.runFrom_halt
    rcases Nat.lt_or_ge limit count with hlt | hge
    · exact .inr (.inl (hcut (hless limit hlt)))
    · obtain ⟨n, rfl⟩ := Nat.exists_eq_add_of_le hge
      cases r with
      | ok r => exact .inl ⟨r, hmore n⟩
      | error f => exact .inr (.inl ⟨f, hmore n, .inl hkeeps⟩)
  | timeout =>
    rw [hexec] at hruns
    exact .inr (.inl (hcut (hruns.runFrom_timeout (Nat.lt_succ_self limit))))

end

/-- The faults of a run of lowered code: those of the data and of the limits, and for an entry that returns something a
    missing return. -/
def Fault.isAllowed (void : Bool) (f : Fault) : Bool :=
  f.isData || match f with
    | .tooManySlots _ | .stepLimit => true
    | .missingReturn => !void
    | _ => false

def loweredEnv (l : Lowered) (args : Array String) : Env := { code := l.state.code, strings := l.state.strings, args }

def loweredStart (l : Lowered) : State := { slots := Array.replicate (slotCount l.state.code) 0 }

theorem run_codeModule (l : Lowered) (args : Array String) (limit : Nat) :
    run l.codeModule args limit = if maxSlots < slotCount l.state.code then .error (.tooManySlots (slotCount l.state.code))
      else runFrom (loweredEnv l args) limit (loweredStart l) := rfl

/-- A run that has come to the end of the piece that an entry is laid out as: a void entry returns there. -/
theorem isAllowed_of_end (hl : l.Laid q) {t : State}
    (hsteps : Steps (loweredEnv l args) 0 q.size trace (loweredStart l) t) (hpc : t.pc = q.size)
    (h : runFrom (loweredEnv l args) limit t = .error f) : f.isAllowed l.returns.isVoid = true := by
  rcases hl.code with ⟨hcode, hend⟩ | ⟨-, hcode⟩
  · have hsize : l.state.code.size = q.size := by rw [← Array.length_toList, hcode, Piece.length_code]
    have hnone : (loweredEnv l args).code[t.pc]? = none :=
      Array.getElem?_eq_none (Nat.le_of_eq (hsize.trans hpc.symm))
    rw [runFrom, hnone] at h
    cases h
    -- A void entry cannot get here.
    cases hvoid : l.returns.isVoid with
    | false => rfl
    | true => exact absurd (hpc.trans hsize.symm) (hsteps.ne_end rfl (hend hvoid))
  · have hret : (loweredEnv l args).code[t.pc]? = some { op := .returnVoid } := by
      have : l.state.code[q.size]? = some { op := .returnVoid } := by
        rw [← Array.getElem?_toList, hcode, List.getElem?_append_right (Nat.le_of_eq (Piece.length_code ..)),
          Piece.length_code]
        simp
      rw [hpc]
      exact this
    rw [runFrom, hret] at h
    cases limit with
    | zero => cases h; rfl
    | succ n => cases h

/-- A run of a lowered entry ends with a result or an allowed fault. -/
theorem isAllowed_of_run (hl : l.Laid q) (hsize : l.state.code.size < 2 ^ 64)
    (h : run l.codeModule args limit = .error f) : f.isAllowed l.returns.isVoid = true := by
  rw [run_codeModule] at h
  split at h
  · cases h
    rfl
  · obtain ⟨tail, hcode⟩ := hl.code_append
    rcases runFrom_balanced (loweredEnv l args) (s := loweredStart l) hl.balanced hcode hsize rfl limit with
      ⟨r, hr⟩ | ⟨f', hf, hallowed⟩ | ⟨trace, t, limit', -, hsteps, hpc, hrun⟩
    · exact nomatch h.symm.trans hr
    · cases h.symm.trans hf
      rcases hallowed with hdata | rfl
      · simp [Fault.isAllowed, hdata]
      · rfl
    · exact isAllowed_of_end hl hsteps hpc (hrun.symm.trans h)

/-- Lowered code never goes wrong: for every program that can be lowered, to any depth, every list of arguments and every
    limit, a run of its module does not fail for want of a word on the stack, by a jump out of the code, by a string that
    is not in the table or by a missing entry; and if the entry returns nothing, not for want of a return either. -/
theorem lowered_never_goes_wrong {p : Program} {depth : Nat} {entry : String} {defaults entryDefaults : List String}
    {l : Lowered} (h : p.loweredTo depth entry defaults entryDefaults = .ok l) :
    ∀ (args : Array String) (limit : Nat) (f : Fault), run l.codeModule args limit = .error f →
      (∀ pc, f ≠ .underflow pc) ∧ (∀ target, f ≠ .jumpTarget target) ∧ (∀ index, f ≠ .stringIndex index) ∧
        f ≠ .entryIndex ∧ (l.returns.isVoid = true → f ≠ .missingReturn) := by
  obtain ⟨q, hq⟩ := laid_of_lowered h
  obtain ⟨-, -, -, -, -, -, hsize, -⟩ := lowered_inv h
  intro args limit f hrun
  have hallowed := isAllowed_of_run hq (Nat.lt_trans hsize (by decide)) hrun
  refine ⟨?_, ?_, ?_, ?_, ?_⟩
  · rintro pc rfl
    exact nomatch hallowed
  · rintro target rfl
    exact nomatch hallowed
  · rintro index rfl
    exact nomatch hallowed
  · rintro rfl
    exact nomatch hallowed
  · rintro hvoid rfl
    rw [hvoid] at hallowed
    exact nomatch hallowed

def greeting : Program := {
  definitions := [{
    path := "/main"
    transforms := [{ name := "return", templateArgs := ["void"] }, { name := "effects", arguments := ["io_out"] }]
    statements := [.plainCall "print_line" [.string "hello"]] }] }

theorem greeting_lowers : (greeting.lowered "/main" [] []).toBool = true := by decide +kernel

/-- The greeting is lowered, so no run of it goes wrong. -/
theorem greeting_never_goes_wrong : ∃ l, greeting.lowered "/main" [] [] = .ok l ∧
    ∀ (args : Array String) (limit : Nat) (f : Fault), run l.codeModule args limit = .error f →
      (∀ pc, f ≠ .underflow pc) ∧ (∀ target, f ≠ .jumpTarget target) ∧ (∀ index, f ≠ .stringIndex index) ∧
        f ≠ .entryIndex ∧ (l.returns.isVoid = true → f ≠ .missingReturn) := by
  have hok := greeting_lowers
  cases h : greeting.lowered "/main" [] [] with
  | error e =>
    rw [h] at hok
    exact nomatch hok
  | ok l => exact ⟨l, rfl, lowered_never_goes_wrong h⟩

end FlatCode.Machine
