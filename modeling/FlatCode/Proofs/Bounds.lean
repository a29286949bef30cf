import FlatCode.Code.Issue
import FlatCode.Proofs.Departure

/-! Runs of any module stay in bounds. The slots are counted once, from the immediates of the code, and a step never
    changes their number; so no instruction of a run misses them, wherever its jumps lead. The faults of the entry, of
    jumps and of printed strings are told beforehand by the issues of the module. The limit bounds the steps of a run
    and nothing else: what ends within one limit ends alike within every greater one. -/

namespace FlatCode
open Machine

def CodeModule.env (m : CodeModule) (f : CodeFunction) (args : Array String) : Env :=
  { code := f.code, strings := m.strings, args }

namespace Machine

/-- The slot that an instruction reads or writes in a state, by its immediate or by an address on the stack. -/
def addressed? (i : Instruction) (s : State) : Option Nat :=
  match i.op, s.stack with
  | .loadLocal, _ | .storeLocal, _ => some i.imm.toNat
  | .loadIndirect, a :: _ | .storeIndirect, _ :: a :: _ => some (a / slotStride).toNat
  | _, _ => none

/-- A run of the module, which enters `f`, comes to instruction `i` in state `s` before its steps are used up. -/
def Executes (m : CodeModule) (args : Array String) (limit : Nat) (f : CodeFunction) (s : State) (i : Instruction) :
    Prop :=
  m.entry? = some f ∧ slotCount f.code ≤ maxSlots ∧ f.code[s.pc]? = some i ∧ ∃ trace, trace.length < limit ∧
    Steps (m.env f args) 0 f.code.size trace { slots := Array.replicate (slotCount f.code) 0 } s

variable {env : Env} {i : Instruction} {s t : State} {fault : Fault} {m : CodeModule} {f : CodeFunction}

theorem atAddress_of_ne_fault {a : Word} {k : Nat → Outcome} (h : ∀ fault, s.atAddress a k ≠ .fault fault) :
    (a / slotStride).toNat < s.slots.size := by
  unfold State.atAddress at h
  split at h
  case isTrue hin => exact hin.2
  case isFalse => exact absurd rfl (h _)

/-- An instruction that goes through an address, and does not fail, addresses one of the slots. -/
theorem lt_size_of_step {slot : Nat} (hslot : addressed? i s = some slot)
    (hop : i.op ≠ .loadLocal ∧ i.op ≠ .storeLocal) (h : ∀ fault, step env i s ≠ .fault fault) : slot < s.slots.size := by
  obtain ⟨op, imm⟩ := i
  unfold addressed? at hslot
  split at hslot
  case h_1 heq => exact absurd heq hop.1
  case h_2 heq => exact absurd heq hop.2
  case h_3 a rest heq hstack | h_4 w a rest heq hstack =>
    obtain rfl : op = _ := heq
    obtain rfl := Option.some.inj hslot
    simp only [step, Opcode.operation, perform, State.pop, hstack] at h
    have hlt := atAddress_of_ne_fault h
    exact hlt
  case h_5 => cases hslot

/-- A fault of a run is that of a missing return or of the limit, or one of its instructions makes it. -/
theorem fault_of_runFrom {limit : Nat} (h : runFrom env limit s = .error fault) :
    fault = .missingReturn ∨ fault = .stepLimit ∨
      ∃ (n : Nat) (i : Instruction) (t : State), env.code[n]? = some i ∧ step env i t = .fault fault := by
  induction limit generalizing s with
  | zero =>
    rw [runFrom] at h
    split at h <;> cases h
    · exact .inl rfl
    · exact .inr (.inl rfl)
  | succ limit ih =>
    rw [runFrom] at h
    split at h
    case h_1 =>
      cases h
      exact .inl rfl
    case h_2 i hi =>
      dsimp only at h
      split at h
      case h_1 => exact ih h
      case h_2 => exact nomatch h
      case h_3 fault' hfault =>
        cases h
        exact .inr (.inr ⟨s.pc, i, s, hi, hfault⟩)

/-- What an instruction with one of the faults that are told beforehand looks like. -/
def Foreseen (env : Env) (i : Instruction) : Fault → Prop
  | .entryIndex => False
  | .jumpTarget _ => i.op.isJump = true ∧ env.code.size < i.imm.toNat
  | .stringIndex _ => i.op = .printString ∧ env.strings.size ≤ (PrintMode.stringIndex i.imm).toNat
  | _ => True

theorem foreseen_of_step (h : step env i s = .fault fault) : Foreseen env i fault := by
  obtain ⟨op, imm⟩ := i
  have hjump : op.operation = .jump ∨ op.operation = .jumpIfZero → op.isJump = true := by
    cases op <;> first | exact fun _ => rfl | exact fun h => absurd h (not_or.mpr ⟨nofun, nofun⟩)
  have hprint : op.operation = .printString → op = .printString := by
    cases op <;> first | exact fun _ => rfl | exact nofun
  unfold step at h
  dsimp only at h
  cases ho : op.operation <;> rw [ho] at h hjump hprint <;>
    simp only [perform, State.pop, State.push, State.jumpTo, State.atAddress, State.write] at h <;>
    cases fault <;> simp only [Foreseen] <;> grind

theorem ofInstruction_eq_nil {n : Nat} (hissues : Issue.ofModule m = []) (hf : f ∈ m.functions)
    (hi : f.code[n]? = some i) : Issue.ofInstruction m f n i = [] := by
  have hcode : Issue.ofFunction m f = [] :=
    List.flatMap_eq_nil_iff.mp (List.append_eq_nil_iff.mp hissues).2 f hf
  refine List.flatten_eq_nil_iff.mp hcode _ (List.mem_iff_getElem?.mpr ⟨n, ?_⟩)
  rw [List.getElem?_mapIdx, Array.getElem?_toList, hi]
  rfl

/-- An instruction without issues makes none of the faults that are told beforehand. -/
theorem ne_fault_of_issues {n : Nat} {args : Array String} (h : Issue.ofInstruction m f n i = [])
    (hfault : Foreseen (m.env f args) i fault) :
    fault ≠ .entryIndex ∧ (∀ target, fault ≠ .jumpTarget target) ∧ ∀ index, fault ≠ .stringIndex index := by
  unfold Issue.ofInstruction at h
  refine ⟨?_, ?_, ?_⟩
  · rintro rfl
    exact hfault
  · rintro target rfl
    obtain ⟨hjump, hsize⟩ : i.op.isJump = true ∧ f.code.size < i.imm.toNat := hfault
    rw [if_pos (by simpa [hjump] using hsize)] at h
    exact nomatch h
  · rintro index rfl
    obtain ⟨hop, hsize⟩ : i.op = .printString ∧ m.strings.size ≤ (PrintMode.stringIndex i.imm).toNat := hfault
    rw [if_neg (by rw [hop]; exact Bool.false_ne_true), if_pos (by simpa [hop] using hsize)] at h
    exact nomatch h

/-- Runs of any module stay in bounds: whatever its code, the arguments and the limit, the slots that a run has are those
    that it started with, each instruction that names a slot names one of them, and each one that goes through an
    address gets to one of them or fails; and a module without issues does not fail by its entry, a jump or a string
    that is printed. -/
theorem runs_in_bounds (m : CodeModule) (args : Array String) (limit : Nat) :
    (∀ f s i, Executes m args limit f s i → s.slots.size = slotCount f.code ∧
      ∀ slot, addressed? i s = some slot →
        (i.op = .loadLocal ∨ i.op = .storeLocal ∨ ∀ fault, step (m.env f args) i s ≠ .fault fault) →
          slot < slotCount f.code) ∧
    (Issue.ofModule m = [] → ∀ fault, run m args limit = .error fault →
      fault ≠ .entryIndex ∧ (∀ target, fault ≠ .jumpTarget target) ∧ ∀ index, fault ≠ .stringIndex index) := by
  constructor
  · rintro f s i ⟨-, hmax, hi, trace, -, hsteps⟩
    have hsize : s.slots.size = slotCount f.code := hsteps.size_slots.trans Array.size_replicate
    refine ⟨hsize, fun slot hslot h => ?_⟩
    by_cases hop : i.op ≠ .loadLocal ∧ i.op ≠ .storeLocal
    · exact hsize ▸ lt_size_of_step hslot hop ((h.resolve_left hop.1).resolve_left hop.2)
    · have hnames : i.op.namesSlot = true ∧ slot = i.imm.toNat := by
        unfold addressed? at hslot
        grind [Opcode.namesSlot]
      exact hnames.2 ▸ lt_slotCount hmax (Array.mem_toList_iff.mpr (Array.mem_of_getElem? hi)) hnames.1
  · intro hissues fault hrun
    have hentry : m.entry? ≠ none := by
      intro hnone
      simp [Issue.ofModule, hnone] at hissues
    unfold run at hrun
    split at hrun
    case h_1 hnone => exact absurd hnone hentry
    case h_2 f hf =>
      dsimp only at hrun
      split at hrun
      case isTrue =>
        cases hrun
        exact ⟨nofun, nofun, nofun⟩
      case isFalse =>
        rcases fault_of_runFrom hrun with rfl | rfl | ⟨n, i, t, hi, hstep⟩
        · exact ⟨nofun, nofun, nofun⟩
        · exact ⟨nofun, nofun, nofun⟩
        · exact ne_fault_of_issues (ofInstruction_eq_nil hissues (List.mem_of_getElem? hf) hi) (foreseen_of_step hstep)

def peeking : CodeModule where
  functions := [{ name := "/main", code := #[{ op := .addressOfLocal }, { op := .loadIndirect }, { op := .returnI64 }] }]
  strings := #[]
  entry := 0

theorem peeking_in_bounds : Issue.ofModule peeking = [] ∧
    ∃ f s i, Executes peeking #[] 2 f s i ∧ addressed? i s = some 0 ∧ 0 < slotCount f.code := by
  have hexecutes : Executes peeking #[] 2 (peeking.functions.head nofun) { pc := 1, stack := [0], slots := #[0] }
      { op := .loadIndirect } :=
    ⟨rfl, by decide, rfl, [0], by decide,
      Steps.cons (s := { slots := #[0] }) (Nat.zero_le 0) (Nat.zero_lt_succ 2) rfl rfl (.refl _)⟩
  exact ⟨by decide, _, _, _, hexecutes, rfl,
    ((runs_in_bounds peeking #[] 2).1 _ _ _ hexecutes).2 0 rfl (.inr (.inr nofun))⟩

/-! ### The limit -/

/-- A run that does not use up its steps goes as it would with one step more. -/
theorem runFrom_succ {limit : Nat} (h : runFrom env limit s ≠ .error .stepLimit) :
    runFrom env (limit + 1) s = runFrom env limit s := by
  induction limit generalizing s with
  | zero =>
    rw [runFrom] at h
    cases hi : env.code[s.pc]? with
    | none => rw [runFrom, runFrom, hi]
    | some i =>
      rw [hi] at h
      exact absurd rfl h
  | succ limit ih =>
    rw [runFrom] at h ⊢
    rw [runFrom]
    cases hi : env.code[s.pc]? with
    | none => rfl
    | some i =>
      rw [hi] at h
      -- The steps are counted before the instruction is carried out, so both runs carry it out.
      cases hstep : step env i s with
      | «continue» t =>
        simp only [hstep] at h ⊢
        exact ih h
      | finished | fault => simp only [hstep]

theorem runFrom_of_le {limit limit' : Nat} (hle : limit ≤ limit') (h : runFrom env limit s ≠ .error .stepLimit) :
    runFrom env limit' s = runFrom env limit s := by
  induction hle with
  | refl => rfl
  | step _ ih => exact (runFrom_succ (ih ▸ h)).trans ih

/-- A greater limit makes no difference to a run that ends before its limit, with a result or with a fault: the word it
    returns, what it prints and its fault are the same. -/
theorem run_of_greater_limit (m : CodeModule) (args : Array String) {limit limit' : Nat} (hle : limit ≤ limit')
    (h : run m args limit ≠ .error .stepLimit) : run m args limit' = run m args limit := by
  unfold run at h ⊢
  cases hentry : m.entry? with
  | none => rfl
  | some f =>
    rw [hentry] at h
    by_cases hmax : maxSlots < slotCount f.code
    · simp only [if_pos hmax]
    · simp only [if_neg hmax] at h ⊢
      exact runFrom_of_le hle h

theorem peeking_of_greater_limit :
    run peeking #[] 3 = .ok { value := some 0, output := {} } ∧ run peeking #[] 5 = run peeking #[] 3 := by
  have hrun : run peeking #[] 3 = .ok { value := some 0, output := {} } := by rfl
  exact ⟨hrun, run_of_greater_limit peeking #[] (by decide) (by simp [hrun])⟩

end Machine
end FlatCode
