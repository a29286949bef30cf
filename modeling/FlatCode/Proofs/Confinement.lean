import FlatCode.Proofs.Safety

/-! What a run prints is confined by the effects that its program lists. Whatever the arguments and the limit, a run
    writes to standard output only if the program lists `io_out`; and to standard error only if it lists `io_err`, but
    for the one line with which a run reports its own failure. -/

namespace FlatCode

/-! ### Code that prints where it may -/

def Operation.prints : Operation → Bool
  | .printString | .print _ | .printArgument => true
  | _ => false

theorem Opcode.prints_of_isQuiet {op : Opcode} (h : op.isQuiet = true) : op.operation.prints = false := by
  cases op <;> first | rfl | contradiction

/-- Code in which all that prints is allowed to, but for reports of failure. -/
inductive Lower.Confined (u : Realm) : List Instruction → Prop
  | nil : Confined u []
  | quiet {i l} (h : i.op.operation.prints = false) (hl : Confined u l) : Confined u (i :: l)
  | print {i l} (h : u.allows (PrintMode.ofImm i.imm).effect) (hl : Confined u l) : Confined u (i :: l)
  | failure {message index l} (h : message ∈ failureMessages) (hS : u.strings[index]? = some message)
    (hl : Confined u l) : Confined u ((Piece.failure index).code 0 0 ++ l)

open Lower

namespace Lower.Confined
variable {u : Realm} {l r : List Instruction}

theorem append (hl : Confined u l) (hr : Confined u r) : Confined u (l ++ r) := by
  induction hl with
  | nil => exact hr
  | quiet h _ ih => exact .quiet h ih
  | print h _ ih => exact .print h ih
  | failure h hS _ ih => exact List.append_assoc .. ▸ .failure h hS ih

/-- An instruction of confined code is quiet, or is allowed to print, or starts a report of failure. -/
theorem at_position {k : Nat} {i : Instruction} (h : Confined u l) (hi : l[k]? = some i) :
    i.op.operation.prints = false ∨ u.allows (PrintMode.ofImm i.imm).effect ∨
      ∃ message index, message ∈ failureMessages ∧ u.strings[index]? = some message ∧
        ∃ rest, l.drop k = (Piece.failure index).code 0 0 ++ rest := by
  induction h generalizing k with
  | nil => exact nomatch hi
  | quiet h _ ih =>
    cases k with
    | zero =>
      cases hi
      exact .inl h
    | succ k => exact ih hi
  | print h _ ih =>
    cases k with
    | zero =>
      cases hi
      exact .inr (.inl h)
    | succ k => exact ih hi
  | @failure message index l h hS _ ih =>
    match k, hi with
    | 0, _ => exact .inr (.inr ⟨message, index, h, hS, l, rfl⟩)
    | 1, hi =>
      cases hi
      exact .inl rfl
    | 2, hi =>
      cases hi
      exact .inl rfl
    | k + 3, hi => exact ih hi

end Lower.Confined

namespace Piece
variable {u : Realm} {p q : Piece} {below : Option Nat} {d d' : Nat}

/-- Wherever the piece stands, its code is confined. -/
def Confined (u : Realm) (p : Piece) : Prop := ∀ target k, Lower.Confined u (p.code target k)

namespace Confined

theorem seq (hp : p.Confined u) (hq : q.Confined u) : (p.seq q).Confined u :=
  fun target k => (hp target k).append (hq target _)

theorem branch (hp : p.Confined u) (hq : q.Confined u) : (Piece.branch p q).Confined u :=
  fun target _ => .append (.quiet rfl (hp target _)) (.quiet rfl (hq target _))

theorem guard (hp : p.Confined u) : (Piece.guard p).Confined u := fun target _ => .quiet rfl (hp target _)

theorem loop (hp : p.Confined u) (hq : q.Confined u) : (Piece.loop p q).Confined u :=
  fun target k => ((hp target k).append (.quiet rfl (hq target _))).append (.quiet rfl .nil)

theorem exit (waiting : Nat) : (Piece.exit waiting).Confined u := fun _ _ => .quiet rfl .nil

theorem scope (hp : p.Confined u) : (Piece.scope p).Confined u := fun _ _ => hp _ _

theorem expansion {callee : String} (hp : p.Confined u) (hq : q.Confined u) : (Piece.expansion callee p q).Confined u :=
  fun target k => (hp target k).append (hq _ _)

end Confined

theorem Plain.confined (h : p.Plain u.strings d d') : p.Confined u := by
  induction h with
  | nop => exact fun _ _ => .nil
  | op quiet => exact fun _ _ => .quiet (Opcode.prints_of_isQuiet quiet.1) .nil
  | seq _ _ ihp ihq => exact ihp.seq ihq
  | branch _ _ ihy ihn => exact ihy.branch ihn
  | guard _ ih => exact ih.guard
  | loop _ _ ihc ihb => exact ihc.loop ihb
  | failure h hS => exact fun _ _ => .failure h hS .nil
  | loopUntil _ _ _ _ ihc iht ihn iha => exact ((ihc.loop (iht.seq ((Confined.exit 0).guard.seq ihn))).seq iha).scope

theorem Laid.confined (h : p.Laid u below d d') : p.Confined u := by
  induction h with
  | plain h => exact h.confined
  | print _ allowed => exact fun _ _ => .print allowed .nil
  | seq _ _ iha ihb => exact iha.seq ihb
  | branch _ _ ihy ihn => exact ihy.branch ihn
  | loop _ _ ihc ihb => exact ihc.loop ihb
  | exit => exact .exit _
  | expansion _ _ _ _ iha ihb => exact iha.expansion ihb
  | frame _ _ ih => exact ih

end Piece

namespace Machine

/-! ### One step -/

section
variable {env : Env} {i : Instruction} {s t : State} {r : Result}

theorem output_of_finished (h : step env i s = .finished r) : r.output = s.output := by
  unfold step at h
  cases ho : i.op.operation <;> rw [ho] at h <;>
    simp only [perform, State.pop, State.atAddress, State.jumpTo] at h <;> grind

/-- A step prints in the mode of its instruction, if at all. -/
theorem output_of_continue (h : step env i s = .continue t) :
    t.output = s.output ∨ ∃ text, t.output = s.output.write (PrintMode.ofImm i.imm) text := by
  unfold step at h
  cases ho : i.op.operation <;> rw [ho] at h <;>
    simp only [perform, State.pop, State.push, State.atAddress, State.jumpTo, State.write] at h <;> grind

theorem output_of_quiet (hi : i.op.operation.prints = false) (h : step env i s = .continue t) :
    t.output = s.output := by
  unfold step at h
  cases ho : i.op.operation with
  | printString | print | printArgument => exact nomatch ho ▸ hi
  | _ =>
    rw [ho] at h
    simp only [perform, State.pop, State.push, State.atAddress, State.jumpTo] at h
    grind

/-- Standard output is written to only where that is allowed. -/
theorem stdout_of_continue {u : Realm} (hcode : Confined u env.code.toList) (hout : ¬u.allows .ioOut)
    (hi : env.code[s.pc]? = some i) (h : step env i s = .continue t) : t.output.stdout = s.output.stdout := by
  rw [← Array.getElem?_toList] at hi
  have hstderr (hmode : (PrintMode.ofImm i.imm).stderr = true) : t.output.stdout = s.output.stdout := by
    rcases output_of_continue h with h | ⟨text, h⟩
    · rw [h]
    · rw [h, Output.write, if_pos hmode]
  rcases hcode.at_position hi with hquiet | hallowed | ⟨message, index, -, -, rest, hdrop⟩
  · rw [output_of_quiet hquiet h]
  · refine hstderr ?_
    by_cases hmode : (PrintMode.ofImm i.imm).stderr = true
    · exact hmode
    · rw [PrintMode.effect, if_neg hmode] at hallowed
      exact absurd hallowed hout
  · have hhead : i = { op := .printString, imm := PrintMode.ofString { newline := true, stderr := true } index } := by
      have hfirst : (env.code.toList.drop s.pc)[0]? = env.code.toList[s.pc]? := List.getElem?_drop
      rw [hdrop, hi] at hfirst
      exact (Option.some.inj hfirst).symm
    refine hstderr ?_
    rw [hhead, ofImm_ofString]

end

/-! ### Whole runs -/

section
variable {env : Env} {u : Realm} {s : State} {r : Result} {limit : Nat}

/-- A run with a result makes a step, which ends it or leads to a shorter one. -/
theorem runFrom_inv (h : runFrom env limit s = .ok r) :
    ∃ n i, limit = n + 1 ∧ env.code[s.pc]? = some i ∧
      (step env i s = .finished r ∨ ∃ t, step env i s = .continue t ∧ runFrom env n t = .ok r) := by
  unfold runFrom at h
  split at h
  · cases h
  case h_2 i hi =>
    split at h
    · cases h
    case h_2 n =>
      refine ⟨n, i, rfl, hi, ?_⟩
      split at h
      case h_1 t hstep => exact .inr ⟨t, hstep, h⟩
      case h_2 hstep =>
        cases h
        exact .inl hstep
      case h_3 => cases h

theorem stdout_of_runFrom (hcode : Confined u env.code.toList) (hout : ¬u.allows .ioOut)
    (h : runFrom env limit s = .ok r) : r.output.stdout = s.output.stdout := by
  induction limit generalizing s with
  | zero =>
    obtain ⟨n, i, hn, -⟩ := runFrom_inv h
    exact nomatch hn
  | succ limit ih =>
    obtain ⟨n, i, hn, hi, hstep | ⟨t, hstep, hrun⟩⟩ := runFrom_inv h
    · rw [output_of_finished hstep]
    · cases hn
      rw [ih hrun, stdout_of_continue hcode hout hi hstep]

/-- A run that comes to a report of failure writes its line and returns three. -/
theorem failure_of_runFrom {message : String} {index : Nat} {rest : List Instruction}
    (hdrop : env.code.toList.drop s.pc = (Piece.failure index).code 0 0 ++ rest) (hindex : index < 2 ^ 62)
    (hmessage : env.strings[index]? = some message) (h : runFrom env limit s = .ok r) :
    r.output.stderr = s.output.stderr ++ (message ++ "\n") ∧ r.value = some 3 := by
  have hcode (j : Nat) : env.code[s.pc + j]? = ((Piece.failure index).code 0 0 ++ rest)[j]? := by
    rw [← hdrop, List.getElem?_drop, Array.getElem?_toList]
  have hstring : env.strings[(PrintMode.stringIndex (PrintMode.ofString ⟨true, true⟩ index)).toNat]? = some message := by
    rw [toNat_stringIndex_ofString, Nat.mod_eq_of_lt hindex, hmessage]
  -- The three instructions are a print, a push and a return.
  obtain ⟨n, i, rfl, hi, hstep⟩ := runFrom_inv h
  cases (hcode 0).symm.trans hi
  simp only [step, Opcode.operation, perform, hstring, State.write, ofImm_ofString, reduceCtorEq, Outcome.continue.injEq,
    exists_eq_left', false_or] at hstep
  obtain ⟨n, i, rfl, hi, hstep⟩ := runFrom_inv hstep
  cases (hcode 1).symm.trans hi
  simp only [step, Opcode.operation, perform, State.push, reduceCtorEq, Outcome.continue.injEq, exists_eq_left',
    false_or] at hstep
  obtain ⟨n, i, rfl, hi, hstep⟩ := runFrom_inv hstep
  cases (hcode 2).symm.trans hi
  simp only [step, Opcode.operation, perform, State.pop, reduceCtorEq, Outcome.finished.injEq, false_and,
    exists_false, or_false] at hstep
  subst hstep
  exact ⟨rfl, rfl⟩

theorem stderr_of_runFrom (hcode : Confined u env.code.toList) (herr : ¬u.allows .ioErr)
    (hstrings : u.strings = env.strings.toList) (hsize : env.strings.size ≤ 2 ^ 62) (hs : s.output.stderr = "")
    (h : runFrom env limit s = .ok r) :
    r.output.stderr = "" ∨ ∃ message ∈ failureMessages, r.output.stderr = message ++ "\n" ∧ r.value = some 3 := by
  induction limit generalizing s with
  | zero =>
    obtain ⟨n, i, hn, -⟩ := runFrom_inv h
    exact nomatch hn
  | succ limit ih =>
    obtain ⟨n, i, hn, hi, hstep | ⟨t, hstep, hrun⟩⟩ := runFrom_inv h
    · rw [output_of_finished hstep]
      exact .inl hs
    · cases hn
      rcases hcode.at_position (Array.getElem?_toList ▸ hi) with hquiet | hallowed |
        ⟨message, index, hmem, hmessage, rest, hdrop⟩
      · exact ih (output_of_quiet hquiet hstep ▸ hs) hrun
      · have hmode : ¬(PrintMode.ofImm i.imm).stderr = true := fun hmode => by
          rw [PrintMode.effect, if_pos hmode] at hallowed
          exact herr hallowed
        refine ih ?_ hrun
        rcases output_of_continue hstep with ht | ⟨text, ht⟩
        · rw [ht, hs]
        · rw [ht, Output.write, if_neg hmode, hs]
      · rw [hstrings, Array.getElem?_toList] at hmessage
        have hindex := (Array.getElem?_eq_some_iff.mp hmessage).1
        obtain ⟨hline, hvalue⟩ := failure_of_runFrom hdrop (Nat.lt_of_lt_of_le hindex hsize) hmessage h
        rw [hs, String.empty_append] at hline
        exact .inr ⟨message, hmem, hline, hvalue⟩

end

/-- What a run prints is confined by the effects that its program lists. If neither a default list nor an `effects(...)`
    of a definition lists `io_out`, no run writes to standard output; if none lists `io_err`, a run writes nothing to
    standard error, or exactly the line of one of the messages of failure, and then it returns three. -/
theorem output_confined_by_effects {p : Program} {depth : Nat} {entry : String} {defaults entryDefaults : List String}
    {l : Lowered} (h : p.loweredTo depth entry defaults entryDefaults = .ok l) {args : Array String} {limit : Nat}
    {r : Result} (hrun : run l.codeModule args limit = .ok r) :
    (¬p.Lists defaults entryDefaults .ioOut → r.output.stdout = "") ∧
    (¬p.Lists defaults entryDefaults .ioErr → r.output.stderr = "" ∨
      ∃ message ∈ failureMessages, r.output.stderr = message ++ "\n" ∧ r.value = some 3) := by
  obtain ⟨q, hq, hlaid, -⟩ := piece_of_lowered h
  obtain ⟨-, -, -, -, -, -, -, hsize, -⟩ := lowered_inv h
  have hconfined : Confined (realm p defaults entryDefaults l.state.strings.toList) l.state.code.toList := by
    rcases hq.code with ⟨hcode, -⟩ | ⟨-, hcode⟩
    · exact hcode ▸ hlaid.confined 0 0
    · exact hcode ▸ (hlaid.confined 0 0).append (.quiet rfl .nil)
  rw [run_codeModule] at hrun
  split at hrun
  · exact nomatch hrun
  · have hcode : Confined (realm p defaults entryDefaults l.state.strings.toList) (loweredEnv l args).code.toList :=
      hconfined
    have hstrings : (loweredEnv l args).strings.size ≤ 2 ^ 62 := Nat.le_trans (Nat.le_of_lt hsize) (by decide)
    exact ⟨fun hout => stdout_of_runFrom hcode hout hrun, fun herr => stderr_of_runFrom hcode herr rfl hstrings rfl hrun⟩

def outOfRange : Program := {
  definitions := [{
    path := "/main"
    transforms := [{ name := "return", templateArgs := ["i32"] }]
    result := some (.plainCall "at" [.call [] { name := "array", args := [.int32 7], templateArgs := ["i32"] },
      .int32 5]) }] }

theorem outOfRange_runs :
    ((outOfRange.lowered "/main" [] []).toOption.bind fun l => (run l.codeModule #[] 100).toOption) =
    some { value := some 3, output := { stderr := "array index out of bounds\n" } } := by
  decide +kernel

theorem outOfRange_lists (x : Effect) : ¬outOfRange.Lists [] [] x := by
  rintro (h | h | ⟨hd, ht, hname, -⟩)
  · exact nomatch h
  · exact nomatch h
  · cases List.mem_singleton.mp hd
    cases List.mem_singleton.mp ht
    exact absurd hname (by decide)

/-- The run fails, reports that on standard error and prints nothing else. -/
theorem outOfRange_confined : ∃ l r, outOfRange.lowered "/main" [] [] = .ok l ∧ run l.codeModule #[] 100 = .ok r ∧
    r.output.stdout = "" ∧ r.output.stderr ≠ "" ∧
    ∃ message ∈ failureMessages, r.output.stderr = message ++ "\n" ∧ r.value = some 3 := by
  obtain ⟨l, hl, hrun⟩ := Option.bind_eq_some_iff.mp outOfRange_runs
  have hlower : outOfRange.lowered "/main" [] [] = .ok l := Stateful.except_eq_ok_of_toOption hl
  have hok := Stateful.except_eq_ok_of_toOption hrun
  have hconfined := output_confined_by_effects hlower hok
  have hne : ({ stderr := "array index out of bounds\n" } : Output).stderr ≠ "" := by decide
  refine ⟨l, _, hlower, hok, hconfined.1 (outOfRange_lists .ioOut), hne, ?_⟩
  exact (hconfined.2 (outOfRange_lists .ioErr)).resolve_left hne

end Machine
end FlatCode
