import FlatCode.Machine.Run
import FlatCode.Proofs.Piece

/-! Running structured code. `exec` follows the nesting of a piece and never looks at a jump; its loops have fuel. The
    main result, `exec_runs`, is that the machine does the same on the code that the piece is laid out as, step by
    step and without leaving it. -/

namespace FlatCode.Machine
open Lower (Exit)

/-- How a run of a piece ends: at its end, by an open exit, with the whole run, or without fuel. -/
inductive Flow where
  | next (s : State)
  | exit (waiting : Nat) (s : State)
  | halt (r : Except Fault Result)
  | timeout

namespace Flow

def andThen (f : Flow) (k : State → Flow) : Flow :=
  match f with
  | .next s => k s
  | f => f

def closeAt (stop : Nat) : Flow → Flow
  | .exit _ s => .next { s with pc := stop }
  | f => f

def choose (s : State) (yes no : State → Flow) : Flow :=
  match s.stack with
  | [] => .halt (.error (.underflow (s.pc + 1)))
  | w :: rest => if w = 0 then no { s with stack := rest } else yes { s with stack := rest }

/-- Runs a loop for at most `n` passes; its body has the given size. -/
def iterate (cond body : State → Flow) (size : Nat) : (n : Nat) → State → Flow
  | 0, _ => .timeout
  | n + 1, s => (cond s).andThen fun t =>
    choose t
      (fun u => (body { u with pc := t.pc + 1 }).andThen fun v => iterate cond body size n { v with pc := s.pc })
      fun u => .next { u with pc := t.pc + size + 2 }

end Flow

def Outcome.flow : Outcome → Flow
  | .continue s => .next s
  | .finished r => .halt (.ok r)
  | .fault f => .halt (.error f)

open Machine.Flow in
/-- Runs a piece that stands at the program counter; each loop makes at most `fuel` passes. -/
def exec (env : Env) (fuel : Nat) : Piece → State → Flow
  | .nop, s => .next s
  | .op i _, s => (step env i s).flow
  | .seq a b, s => (exec env fuel a s).andThen (exec env fuel b)
  | .branch yes no, s =>
    choose s
      (fun t => (exec env fuel yes { t with pc := s.pc + 1 }).andThen fun u =>
        .next { u with pc := s.pc + yes.size + no.size + 2 })
      fun t => exec env fuel no { t with pc := s.pc + yes.size + 2 }
  | .guard body, s =>
    choose s (fun t => exec env fuel body { t with pc := s.pc + 1 }) fun t =>
      .next { t with pc := s.pc + body.size + 1 }
  | .loop cond body, s => iterate (exec env fuel cond) (exec env fuel body) body.size fuel s
  | .exit waiting, s => .exit waiting s
  | .scope body, s => (exec env fuel body s).closeAt (s.pc + body.size)
  | .expansion _ args body, s =>
    (exec env fuel args s).andThen fun t => (exec env fuel body t).closeAt (t.pc + body.size)

/-- The instructions at the positions of `trace` lead from `s` to `t`; they all stand between `lo` and `hi`. -/
inductive Steps (env : Env) (lo hi : Nat) : List Nat → State → State → Prop
  | refl (s : State) : Steps env lo hi [] s s
  | cons {trace : List Nat} {s t u : State} {i : Instruction} (low : lo ≤ s.pc) (high : s.pc < hi)
    (code : env.code[s.pc]? = some i) (step : step env i s = .continue t) (rest : Steps env lo hi trace t u) :
    Steps env lo hi (s.pc :: trace) s u

namespace Steps
variable {env : Env} {lo hi lo' hi' : Nat} {trace trace' : List Nat} {s t u : State}
  (h : Steps env lo hi trace s t)
include h

theorem trans (h' : Steps env lo hi trace' t u) : Steps env lo hi (trace ++ trace') s u := by
  induction h with
  | refl => exact h'
  | cons low high code step _ ih => exact .cons low high code step (ih h')

theorem widen (hlo : lo' ≤ lo) (hhi : hi ≤ hi') : Steps env lo' hi' trace s t := by
  induction h with
  | refl => exact .refl _
  | cons low high code step _ ih => exact .cons (Nat.le_trans hlo low) (Nat.lt_of_lt_of_le high hhi) code step ih

theorem bounds : ∀ q ∈ trace, lo ≤ q ∧ q < hi := by
  induction h with
  | refl => exact nofun
  | cons low high _ _ _ ih =>
    intro q hq
    rcases List.mem_cons.mp hq with rfl | hq
    · exact ⟨low, high⟩
    · exact ih q hq

theorem deterministic (h' : Steps env lo' hi' trace' s u) :
    (∃ more, trace' = trace ++ more ∧ Steps env lo' hi' more t u) ∨
      ∃ more, trace = trace' ++ more ∧ Steps env lo hi more u t := by
  induction h generalizing trace' with
  | refl => exact .inl ⟨trace', rfl, h'⟩
  | cons low high code step rest ih =>
    cases h' with
    | refl => exact .inr ⟨_, rfl, .cons low high code step rest⟩
    | cons low' high' code' step' rest' =>
      obtain rfl := Option.some.inj (code.symm.trans code')
      obtain rfl := Outcome.continue.inj (step.symm.trans step')
      rcases ih rest' with ⟨more, rfl, hmore⟩ | ⟨more, rfl, hmore⟩
      · exact .inl ⟨more, rfl, hmore⟩
      · exact .inr ⟨more, rfl, hmore⟩

end Steps

variable {k target : Nat}

section
variable {env : Env} {s t : State}

theorem pc_of_perform {imm : UInt64} {o : Operation} (ho : o ≠ .jump) (ho' : o ≠ .jumpIfZero)
    (h : perform env imm s o = .continue t) : t.pc = s.pc := by
  cases o <;> simp only [perform, State.pop, State.push, State.atAddress, State.write] at h <;> grind

theorem operation_ne_jump {op : Opcode} (plain : op.isJump = false) :
    op.operation ≠ .jump ∧ op.operation ≠ .jumpIfZero := by
  cases op <;> first | contradiction | exact ⟨nofun, nofun⟩

theorem pc_of_step {i : Instruction} (plain : i.op.isJump = false) (h : step env i s = .continue t) : t.pc = s.pc + 1 :=
  pc_of_perform (operation_ne_jump plain).1 (operation_ne_jump plain).2 h

/-- A jump within the code leads to its target. -/
theorem step_jump (hsize : env.code.size < 2 ^ 64) (ht : target ≤ env.code.size) :
    step env (.leadingTo .jump target) s = .continue { s with pc := target } := by
  have hnat : (UInt64.ofNat target).toNat = target := UInt64.toNat_ofNat_of_lt' (by show target < 2 ^ 64; omega)
  simp [step, Opcode.operation, Instruction.leadingTo, perform, State.jumpTo, hnat, ht]

theorem step_jumpIfZero_nil (h : s.stack = []) :
    step env (.leadingTo .jumpIfZero target) s = .fault (.underflow (s.pc + 1)) := by
  simp [step, Opcode.operation, Instruction.leadingTo, perform, State.pop, h]

theorem step_jumpIfZero {w : Word} {rest : List Word} (hsize : env.code.size < 2 ^ 64)
    (ht : target ≤ env.code.size) (h : s.stack = w :: rest) :
    step env (.leadingTo .jumpIfZero target) s =
      .continue { s with pc := if w = 0 then target else s.pc + 1, stack := rest } := by
  have hnat : (UInt64.ofNat target).toNat = target := UInt64.toNat_ofNat_of_lt' (by show target < 2 ^ 64; omega)
  by_cases hw : w = 0 <;>
    simp [step, Opcode.operation, Instruction.leadingTo, perform, State.pop, State.jumpTo, hnat, ht, h, hw]

end

def Holds (code : Array Instruction) (k : Nat) (l : List Instruction) : Prop := ∀ i < l.length, code[k + i]? = l[i]?

section
variable {code : Array Instruction} {k : Nat} {i : Instruction} {l r : List Instruction}

theorem Holds.head (h : Holds code k (i :: l)) : code[k]? = some i := h 0 (Nat.zero_lt_succ _)

theorem Holds.tail (h : Holds code k (i :: l)) : Holds code (k + 1) l := by
  intro j hj
  rw [Nat.add_assoc, Nat.add_comm 1]
  exact h (j + 1) (Nat.succ_lt_succ hj)

theorem Holds.left (h : Holds code k (l ++ r)) : Holds code k l := by
  intro j hj
  rw [h j (by rw [List.length_append]; omega), List.getElem?_append_left hj]

theorem Holds.right (h : Holds code k (l ++ r)) : Holds code (k + l.length) r := by
  intro j hj
  rw [Nat.add_assoc, h _ (by rw [List.length_append]; omega), List.getElem?_append_right (Nat.le_add_right ..),
    Nat.add_sub_cancel_left]

theorem Holds.of_toList (h : code.toList = l ++ r) : Holds code 0 l := by
  intro i hi
  rw [Nat.zero_add, ← Array.getElem?_toList, h, List.getElem?_append_left hi]

theorem lt_size_of_getElem? (h : code[k]? = some i) : k < code.size := (Array.getElem?_eq_some_iff.mp h).1

section
variable {target : Nat} {p a b : Piece}

theorem size_le_of_toList (h : code.toList = p.code target k ++ r) : p.size ≤ code.size := by
  rw [← Array.length_toList, h, List.length_append, Piece.length_code]
  exact Nat.le_add_right ..

theorem Holds.seq (h : Holds code k ((a.seq b).code target k)) :
    Holds code k (a.code target k) ∧ Holds code (k + a.size) (b.code target (k + a.size)) := by
  have hright := h.right
  rw [Piece.length_code] at hright
  exact ⟨h.left, hright⟩

theorem Holds.branch (h : Holds code k ((Piece.branch a b).code target k)) :
    Holds code (k + 1) (a.code target (k + 1)) ∧ Holds code (k + a.size + 2) (b.code target (k + a.size + 2)) := by
  have hright := h.tail.right
  rw [Piece.length_code, Nat.add_right_comm] at hright
  exact ⟨h.tail.left, hright.tail⟩

theorem Holds.loop (h : Holds code k ((Piece.loop a b).code target k)) :
    Holds code k (a.code target k) ∧ Holds code (k + a.size + 1) (b.code target (k + a.size + 1)) := by
  have hright := h.left.right
  rw [Piece.length_code] at hright
  exact ⟨h.left.left, hright.tail⟩

theorem Holds.expansion {callee : String} (h : Holds code k ((Piece.expansion callee a b).code target k)) :
    Holds code k (a.code target k) ∧ Holds code (k + a.size) (b.code (k + a.size + b.size) (k + a.size)) := by
  have hright := h.right
  rw [Piece.length_code] at hright
  exact ⟨h.left, hright⟩

end
end

/-- A part of the code, from `lo` to `hi`, with the exits that leave it and where they lead. -/
structure Region where
  lo : Nat
  hi : Nat
  target : Nat
  exits : List Exit

def Avoids (exits : List Exit) (trace : List Nat) : Prop := ∀ x ∈ exits, x.position ∉ trace

/-- What the machine does in a region from `s` on is the flow: it comes to `stop`, or leaves by an exit, or ends the
    run, or makes at least `n` steps. -/
def Flow.Runs (env : Env) (r : Region) (stop n : Nat) (s : State) : Flow → Prop
  | .next t => t.pc = stop ∧ ∃ trace, Steps env r.lo r.hi trace s t ∧ Avoids r.exits trace
  | .exit waiting t => ∃ trace, ∃ x ∈ r.exits, x.waiting = waiting ∧
      Steps env r.lo r.hi (trace ++ [x.position]) s { t with pc := r.target } ∧ Avoids r.exits trace
  | .halt result => ∃ trace t i, Steps env r.lo r.hi trace s t ∧ r.lo ≤ t.pc ∧ t.pc < r.hi ∧
      env.code[t.pc]? = some i ∧ (step env i t).flow = .halt result
  | .timeout => ∃ trace t, Steps env r.lo r.hi trace s t ∧ n ≤ trace.length

namespace Flow.Runs
variable {env : Env} {r r' : Region} {stop mid n n' : Nat} {s t : State} {f : Flow} {k : State → Flow}

theorem mono (h : f.Runs env r stop n s) (hn : n' ≤ n) : f.Runs env r stop n' s := by
  cases f with
  | timeout =>
    obtain ⟨trace, t, hsteps, hle⟩ := h
    exact ⟨trace, t, hsteps, Nat.le_trans hn hle⟩
  | next | exit | halt => exact h

theorem after {trace : List Nat} (hsteps : Steps env r.lo r.hi trace s t) (havoid : Avoids r.exits trace)
    (h : f.Runs env r stop n t) : f.Runs env r stop (n + trace.length) s := by
  have havoids : ∀ {trace'}, Avoids r.exits trace' → Avoids r.exits (trace ++ trace') := fun h' x hx hmem =>
    (List.mem_append.mp hmem).elim (havoid x hx) (h' x hx)
  cases f with
  | next u =>
    obtain ⟨hpc, trace', hsteps', havoid'⟩ := h
    exact ⟨hpc, trace ++ trace', hsteps.trans hsteps', havoids havoid'⟩
  | exit waiting u =>
    obtain ⟨trace', x, hx, hw, hsteps', havoid'⟩ := h
    exact ⟨trace ++ trace', x, hx, hw, List.append_assoc .. ▸ hsteps.trans hsteps', havoids havoid'⟩
  | halt result =>
    obtain ⟨trace', u, i, hsteps', hrest⟩ := h
    exact ⟨trace ++ trace', u, i, hsteps.trans hsteps', hrest⟩
  | timeout =>
    obtain ⟨trace', u, hsteps', hle⟩ := h
    exact ⟨trace ++ trace', u, hsteps.trans hsteps', by rw [List.length_append]; omega⟩

theorem andThen (h : f.Runs env r mid n s) (hk : ∀ t, t.pc = mid → (k t).Runs env r stop n t) :
    (f.andThen k).Runs env r stop n s := by
  cases f with
  | next t =>
    obtain ⟨hpc, trace, hsteps, havoid⟩ := h
    exact (after hsteps havoid (hk t hpc)).mono (Nat.le_add_right ..)
  | exit | halt | timeout => exact h

/-- A run in a region is one in a wider region that has no other exits there. -/
theorem widen (h : f.Runs env r stop n s) (hlo : r'.lo ≤ r.lo) (hhi : r.hi ≤ r'.hi) (htarget : r'.target = r.target)
    (hsub : ∀ x ∈ r.exits, x ∈ r'.exits)
    (hinside : ∀ x ∈ r'.exits, r.lo ≤ x.position → x.position < r.hi → x ∈ r.exits) : f.Runs env r' stop n s := by
  have havoids : ∀ {trace t}, Steps env r.lo r.hi trace s t → Avoids r.exits trace → Avoids r'.exits trace :=
    fun hsteps havoid x hx hmem =>
      havoid x (hinside x hx (hsteps.bounds _ hmem).1 (hsteps.bounds _ hmem).2) hmem
  cases f with
  | next t =>
    obtain ⟨hpc, trace, hsteps, havoid⟩ := h
    exact ⟨hpc, trace, hsteps.widen hlo hhi, havoids hsteps havoid⟩
  | exit waiting t =>
    obtain ⟨trace, x, hx, hw, hsteps, havoid⟩ := h
    refine ⟨trace, x, hsub x hx, hw, htarget ▸ hsteps.widen hlo hhi, fun y hy hmem => ?_⟩
    have hbounds := hsteps.bounds _ (List.mem_append_left _ hmem)
    exact havoid y (hinside y hy hbounds.1 hbounds.2) hmem
  | halt result =>
    obtain ⟨trace, t, i, hsteps, hlo', hhi', hrest⟩ := h
    exact ⟨trace, t, i, hsteps.widen hlo hhi, Nat.le_trans hlo hlo', Nat.lt_of_lt_of_le hhi' hhi, hrest⟩
  | timeout =>
    obtain ⟨trace, t, hsteps, hle⟩ := h
    exact ⟨trace, t, hsteps.widen hlo hhi, hle⟩

/-- One step to where the flow goes on. -/
theorem step_then {i : Instruction} (hlo : r.lo ≤ s.pc) (hhi : s.pc < r.hi) (hcode : env.code[s.pc]? = some i)
    (hfree : ∀ x ∈ r.exits, x.position ≠ s.pc) (hstep : step env i s = .continue t) (h : f.Runs env r stop n t) :
    f.Runs env r stop (n + 1) s :=
  after (.cons hlo hhi hcode hstep (.refl t)) (fun x hx hmem => hfree x hx (List.mem_singleton.mp hmem)) h

theorem choose {target : Nat} {yes no : State → Flow} (hsize : env.code.size < 2 ^ 64) (hlo : r.lo ≤ s.pc)
    (hhi : s.pc < r.hi) (hcode : env.code[s.pc]? = some (.leadingTo .jumpIfZero target))
    (htarget : target ≤ env.code.size) (hfree : ∀ x ∈ r.exits, x.position ≠ s.pc)
    (hyes : ∀ t, (yes t).Runs env r stop n { t with pc := s.pc + 1 })
    (hno : ∀ t, (no t).Runs env r stop n { t with pc := target }) : (Flow.choose s yes no).Runs env r stop n s := by
  unfold Flow.choose
  split
  case h_1 hstack => exact ⟨[], s, _, .refl s, hlo, hhi, hcode, by rw [step_jumpIfZero_nil hstack]; rfl⟩
  case h_2 w rest hstack =>
    have hstep := step_jumpIfZero (s := s) hsize htarget hstack
    split
    case isTrue hw =>
      rw [if_pos hw] at hstep
      exact (step_then hlo hhi hcode hfree hstep (hno _)).mono (Nat.le_succ n)
    case isFalse hw =>
      rw [if_neg hw] at hstep
      exact (step_then hlo hhi hcode hfree hstep (hyes _)).mono (Nat.le_succ n)

/-- Two branches, the first of which ends with a jump over the second. -/
theorem branch {yes no : State → Flow} {k y m : Nat} (hsize : env.code.size < 2 ^ 64) (hlo : r.lo ≤ k)
    (hhi : k + y + m + 2 ≤ r.hi) (hend : k + y + m + 2 ≤ env.code.size)
    (htest : env.code[k]? = some (.leadingTo .jumpIfZero (k + y + 2)))
    (hjump : env.code[k + y + 1]? = some (.leadingTo .jump (k + y + m + 2)))
    (hyes : ∀ t, t.pc = k + 1 → (yes t).Runs env r (k + y + 1) n t)
    (hno : ∀ t, t.pc = k + y + 2 → (no t).Runs env r (k + y + m + 2) n t)
    (hfree : ∀ x ∈ r.exits, x.position ≠ k ∧ x.position ≠ k + y + 1) (hs : s.pc = k) :
    (Flow.choose s (fun t => (yes { t with pc := s.pc + 1 }).andThen fun u => .next { u with pc := s.pc + y + m + 2 })
      fun t => no { t with pc := s.pc + y + 2 }).Runs env r (k + y + m + 2) n s := by
  subst hs
  refine choose hsize hlo (by omega) htest (by omega) (fun x hx => (hfree x hx).1) (fun t => ?_) fun t => hno _ rfl
  refine (hyes _ rfl).andThen fun u hu => ?_
  rw [← hu] at hjump
  refine (step_then (by omega) (by omega) hjump (fun x hx => hu ▸ (hfree x hx).2) (step_jump hsize hend) ?_).mono
    (Nat.le_succ n)
  exact ⟨rfl, [], .refl _, nofun⟩

/-- Where the exits of a scope lead the run goes on. -/
theorem closeAt {lo hi : Nat} {exits : List Exit} (h : f.Runs env ⟨lo, hi, stop, exits⟩ stop n s) (target : Nat) :
    (f.closeAt stop).Runs env ⟨lo, hi, target, []⟩ stop n s := by
  cases f with
  | next t =>
    obtain ⟨hpc, trace, hsteps, -⟩ := h
    exact ⟨hpc, trace, hsteps, nofun⟩
  | exit waiting t =>
    obtain ⟨trace, x, -, -, hsteps, -⟩ := h
    exact ⟨rfl, trace ++ [x.position], hsteps, nofun⟩
  | halt | timeout => exact h

/-- The passes of a loop, each of which ends with a jump back. -/
theorem iterate {cond body : State → Flow} {start c size fuel : Nat} (hsize : env.code.size < 2 ^ 64)
    (hlo : r.lo = start) (hhi : r.hi = start + c + size + 2)
    (hcond : ∀ s, s.pc = start → (cond s).Runs env r (start + c) fuel s)
    (htest : env.code[start + c]? = some (.leadingTo .jumpIfZero (start + c + size + 2)))
    (hbody : ∀ s, s.pc = start + c + 1 → (body s).Runs env r (start + c + 1 + size) fuel s)
    (hback : env.code[start + c + 1 + size]? = some (.leadingTo .jump start))
    (hfree : ∀ x ∈ r.exits, x.position ≠ start + c ∧ x.position ≠ start + c + 1 + size) (hn : n ≤ fuel)
    (hs : s.pc = start) : (Flow.iterate cond body size n s).Runs env r (start + c + size + 2) n s := by
  -- The jump back is a step of every pass, so that `n` passes make at least `n` steps.
  induction n generalizing s with
  | zero => exact ⟨[], s, .refl s, Nat.le_refl 0⟩
  | succ n ih =>
    have hend := lt_size_of_getElem? hback
    refine ((hcond s hs).mono hn).andThen fun t ht => ?_
    rw [← ht] at htest
    refine choose hsize (by omega) (by omega) htest (by omega) (fun x hx => ht ▸ (hfree x hx).1) ?_ ?_
    · intro u
      refine ((hbody { u with pc := t.pc + 1 } (congrArg (· + 1) ht)).mono hn).andThen fun v hv => ?_
      rw [← hv] at hback
      rw [hs]
      exact step_then (by omega) (by omega) hback (fun x hx => hv ▸ (hfree x hx).2)
        (step_jump hsize (by omega)) (ih (Nat.le_of_succ_le hn) rfl)
    · intro u
      exact ⟨by rw [← ht], [], by rw [ht]; exact .refl _, nofun⟩

end Flow.Runs

def region (p : Piece) (target k : Nat) : Region := { lo := k, hi := k + p.size, target, exits := p.exits k }

theorem exits_bounds {p : Piece} {x : Exit} (h : x ∈ p.exits k) : k ≤ x.position ∧ x.position < k + p.size := by
  induction p generalizing k <;> grind [Piece.exits, Piece.size]

variable {env : Env} {s : State}

theorem Flow.Runs.inside {q : Piece} {r : Region} {j stop n : Nat} {f : Flow}
    (h : f.Runs env (region q target j) stop n s) (hlo : r.lo ≤ j) (hhi : j + q.size ≤ r.hi) (ht : r.target = target)
    (hsub : ∀ x ∈ q.exits j, x ∈ r.exits)
    (hother : ∀ x ∈ r.exits, x ∈ q.exits j ∨ x.position < j ∨ j + q.size ≤ x.position) : f.Runs env r stop n s :=
  h.widen hlo hhi ht hsub fun x hx hlo' hhi' =>
    (hother x hx).resolve_right fun h => h.elim (Nat.not_lt.mpr hlo') (Nat.not_le.mpr hhi')

section
variable {a b : Piece} {r : Region} {target i j stop n : Nat} {f : Flow}

theorem Flow.Runs.first (h : f.Runs env (region a target i) stop n s) (hexits : r.exits = b.exits j ++ a.exits i)
    (ht : r.target = target) (hlo : r.lo ≤ i) (hmid : i + a.size ≤ j) (hhi : j ≤ r.hi) : f.Runs env r stop n s := by
  refine h.inside hlo (Nat.le_trans hmid hhi) ht (fun x hx => ?_) fun x hx => ?_
  · rw [hexits]
    exact List.mem_append_right _ hx
  · rw [hexits] at hx
    refine (List.mem_append.mp hx).elim (fun hx => .inr (.inr ?_)) .inl
    exact Nat.le_trans hmid (exits_bounds hx).1

theorem Flow.Runs.second (h : f.Runs env (region b target j) stop n s) (hexits : r.exits = b.exits j ++ a.exits i)
    (ht : r.target = target) (hlo : r.lo ≤ j) (hmid : i + a.size ≤ j) (hhi : j + b.size ≤ r.hi) :
    f.Runs env r stop n s := by
  refine h.inside hlo hhi ht (fun x hx => ?_) fun x hx => ?_
  · rw [hexits]
    exact List.mem_append_left _ hx
  · rw [hexits] at hx
    refine (List.mem_append.mp hx).elim .inl fun hx => .inr (.inl ?_)
    exact Nat.lt_of_lt_of_le (exits_bounds hx).2 hmid

end

/-- The machine runs the code of a piece as `exec` runs the piece. -/
theorem exec_runs (p : Piece) (fuel : Nat) (hsize : env.code.size < 2 ^ 64) (hend : k + p.size ≤ env.code.size)
    (htarget : target ≤ env.code.size) (hcode : Holds env.code k (p.code target k)) (hs : s.pc = k) :
    (exec env fuel p s).Runs env (region p target k) (k + p.size) fuel s := by
  -- The target varies in the induction: the exits in a scope lead to its end, not to where those of the scope lead.
  induction p generalizing target k s with
  | nop => exact ⟨hs, [], .refl s, fun _ _ => List.not_mem_nil⟩
  | op i plain =>
    have hi : env.code[s.pc]? = some i := hs ▸ hcode.head
    have hlo : k ≤ s.pc := Nat.le_of_eq hs.symm
    have hhi : s.pc < k + 1 := by omega
    simp only [exec]
    cases hstep : step env i s with
    | «continue» t =>
      exact ⟨hs ▸ pc_of_step plain hstep, [s.pc], .cons hlo hhi hi hstep (.refl t), List.forall_mem_nil _⟩
    | finished | fault => exact ⟨[], s, i, .refl s, hlo, hhi, hi, by rw [hstep]; rfl⟩
  | seq a b iha ihb =>
    simp only [Piece.size, ← Nat.add_assoc] at hend ⊢
    have hhi : k + a.size + b.size = (region (a.seq b) target k).hi := Nat.add_assoc ..
    have ha := iha (by omega) htarget hcode.seq.1 hs
    refine .andThen (ha.first rfl rfl (Nat.le_refl k) (Nat.le_refl _) (by omega)) fun t ht => ?_
    exact (ihb hend htarget hcode.seq.2 ht).second rfl rfl (Nat.le_add_right k _) (Nat.le_refl _) (Nat.le_of_eq hhi)
  | branch yes no ihy ihn =>
    have hhi : k + yes.size + no.size + 2 = k + (Piece.branch yes no).size := by
      simp only [Piece.size]
      omega
    rw [← hhi] at hend ⊢
    have hright := hcode.tail.right
    rw [Piece.length_code, Nat.add_right_comm] at hright
    refine .branch hsize (Nat.le_refl k) (Nat.le_of_eq hhi) hend hcode.head hright.head ?_ ?_ ?_ hs
    · intro t ht
      have hy := ihy (by omega) htarget hcode.tail.left ht
      rw [Nat.add_right_comm] at hy
      exact hy.first rfl rfl (Nat.le_succ k) (by omega) (by simp only [region]; omega)
    · intro t ht
      have hn := ihn (by omega) htarget hright.tail ht
      rw [Nat.add_right_comm _ 2] at hn
      exact hn.second rfl rfl (by simp only [region]; omega) (by omega) (by simp only [region]; omega)
    · intro x hx
      rcases List.mem_append.mp hx with hx | hx <;> have := exits_bounds hx <;> omega
  | guard body ih =>
    simp only [Piece.size] at hend ⊢
    have htest := hcode.head
    rw [← hs] at htest
    refine .choose hsize (by simp only [region]; omega) (by simp only [region, Piece.size]; omega) htest (by omega) ?_ ?_ ?_
    · intro x hx
      have := (exits_bounds (p := body) (k := k + 1) hx).1
      omega
    · intro t
      have hb := ih (k := k + 1) (s := { t with pc := s.pc + 1 }) (by omega) htarget hcode.tail (by rw [hs])
      rw [Nat.add_assoc, Nat.add_comm 1] at hb
      exact hb.inside (Nat.le_succ k) (by simp only [region, Piece.size]; omega) rfl (fun x hx => hx) fun x hx => .inl hx
    · intro t
      exact ⟨by simp only [hs, Nat.add_assoc], [], hs ▸ .refl _, fun _ _ => List.not_mem_nil⟩
  | loop cond body ihc ihb =>
    have hhi : k + cond.size + body.size + 2 = k + (Piece.loop cond body).size := by
      simp only [Piece.size]
      omega
    rw [← hhi] at hend ⊢
    have hright := hcode.left.right
    rw [Piece.length_code] at hright
    have hback := hcode.right.head
    rw [List.length_append, List.length_cons, Piece.length_code, Piece.length_code,
      show k + (cond.size + (body.size + 1)) = k + cond.size + 1 + body.size by omega] at hback
    refine .iterate hsize rfl hhi.symm ?_ hright.head ?_ hback ?_ (Nat.le_refl fuel) hs
    · intro t ht
      have hc := ihc (by omega) htarget hcode.left.left ht
      exact hc.first rfl rfl (Nat.le_refl k) (Nat.le_succ _) (by simp only [region]; omega)
    · intro t ht
      have hb := ihb (by omega) htarget hright.tail ht
      exact hb.second rfl rfl (by simp only [region]; omega) (Nat.le_succ _) (by simp only [region]; omega)
    · intro x hx
      rcases List.mem_append.mp hx with hx | hx <;> have := exits_bounds hx <;> omega
  | exit waiting =>
    have hj := hcode.head
    rw [← hs] at hj
    refine ⟨[], _, List.mem_singleton_self _, rfl, ?_, fun _ _ => List.not_mem_nil⟩
    exact hs ▸ .cons (Nat.le_refl _) (Nat.lt_succ_self _) hj (step_jump hsize htarget) (.refl _)
  | scope body ih =>
    simp only [exec, hs]
    exact (ih hend hend hcode hs).closeAt target
  | expansion callee args body iha ihb =>
    simp only [Piece.size] at hend ⊢
    have ha := iha (by omega) htarget hcode.expansion.1 hs
    refine (ha.inside (Nat.le_refl k) (by simp only [region, Piece.size]; omega) rfl (fun x hx => hx)
      fun x hx => .inl hx).andThen fun t ht => ?_
    -- The exits of the body are closed, so those of the expansion are those of its arguments.
    have hb := (ihb (by omega) (by omega) hcode.expansion.2 ht).closeAt target
    rw [← Nat.add_assoc, ht]
    refine hb.widen (Nat.le_add_right k _) (by simp only [region, Piece.size]; omega) rfl (by simp) ?_
    intro x hx hlo
    have := exits_bounds (p := args) (k := k) hx
    simp only at hlo
    omega

section
variable {lo hi stop fuel n : Nat} {t : State} {trace : List Nat} {r : Region} {result : Except Fault Result}

theorem runFrom_steps (h : Steps env lo hi trace s t) (n : Nat) :
    runFrom env (trace.length + n) s = runFrom env n t := by
  induction h with
  | refl => rw [List.length_nil, Nat.zero_add]
  | cons _ _ code step _ ih =>
    rw [List.length_cons, Nat.succ_add, runFrom, code]
    simp only [step, ih]

theorem runFrom_of_lt (h : Steps env lo hi trace s t) (hn : n < trace.length) :
    runFrom env n s = .error .stepLimit := by
  induction h generalizing n with
  | refl => exact absurd hn (Nat.not_lt_zero n)
  | cons _ _ code step _ ih =>
    rw [runFrom, code]
    cases n with
    | zero => rfl
    | succ n => simp only [step, ih (Nat.lt_of_succ_lt_succ hn)]

theorem Flow.Runs.runFrom_next (h : (Flow.next t).Runs env r stop fuel s) :
    ∃ count, (∀ n < count, runFrom env n s = .error .stepLimit) ∧
      ∀ n, runFrom env (count + n) s = runFrom env n t := by
  obtain ⟨-, trace, hsteps, -⟩ := h
  exact ⟨trace.length, fun n hn => runFrom_of_lt hsteps hn, runFrom_steps hsteps⟩

theorem Flow.Runs.runFrom_halt (h : (Flow.halt result).Runs env r stop fuel s) :
    ∃ count, (∀ n < count, runFrom env n s = .error .stepLimit) ∧ ∀ n, runFrom env (count + n) s = result := by
  obtain ⟨trace, t, i, hsteps, -, -, hcode, hstep⟩ := h
  -- The step that ends the run counts as well.
  have hzero : runFrom env 0 t = .error .stepLimit := by rw [runFrom, hcode]
  have hone : ∀ n, runFrom env (n + 1) t = result := fun n => by
    rw [runFrom, hcode]
    cases hout : FlatCode.Machine.step env i t <;> rw [hout] at hstep <;> cases hstep <;> simp only [hout]
  refine ⟨trace.length + 1, fun n hn => ?_, fun n => ?_⟩
  · rcases Nat.lt_or_eq_of_le (Nat.le_of_lt_succ hn) with hn | rfl
    · exact runFrom_of_lt hsteps hn
    · exact (runFrom_steps hsteps 0).trans hzero
  · rw [Nat.add_assoc, runFrom_steps hsteps, Nat.add_comm, hone]

theorem Flow.Runs.runFrom_timeout (h : Flow.timeout.Runs env r stop fuel s) (hn : n < fuel) :
    runFrom env n s = .error .stepLimit := by
  obtain ⟨trace, t, hsteps, hle⟩ := h
  exact runFrom_of_lt hsteps (Nat.lt_of_lt_of_le hn hle)

end
end FlatCode.Machine
