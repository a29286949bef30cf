import FlatCode.Proofs.Flow

/-! The stack discipline of structured code. Depths are counted from where a piece starts: a balanced piece takes `d`
    words and leaves `d'`, and below them the words of the enclosing scope are not touched. Main statement: a run of a
    balanced piece never lacks a word and never prints a string that is not there (`exec_keeps`). -/

namespace FlatCode

/-! ### Operations -/

def Operation.takes : Operation → Nat
  | .push _ | .load | .jump | .returnVoid | .argumentCount | .printString => 0
  | .unary _ | .pop | .dup | .store | .loadIndirect | .jumpIfZero | .returnValue | .print _ | .printArgument
  | .stringByte => 1
  | .binary _ | .divide _ | .storeIndirect => 2

def Operation.leaves : Operation → Nat
  | .pop | .store | .jump | .jumpIfZero | .returnVoid | .returnValue | .printString | .print _ | .printArgument => 0
  | .push _ | .unary _ | .binary _ | .divide _ | .load | .loadIndirect | .storeIndirect | .argumentCount
  | .stringByte => 1
  | .dup => 2

def Instruction.PrintsBelow (n : Nat) (i : Instruction) : Prop :=
  i.op = .printString → (PrintMode.stringIndex i.imm).toNat < n

namespace Piece

def waits : Piece → List Nat
  | nop | op .. | scope _ => []
  | seq a b => b.waits ++ a.waits
  | branch yes no => no.waits ++ yes.waits
  | guard body => body.waits
  | loop cond body => body.waits ++ cond.waits
  | exit waiting => [waiting]
  | expansion _ args _ => args.waits

theorem map_waiting_exits (p : Piece) (k : Nat) : (p.exits k).map (·.waiting) = p.waits := by
  induction p generalizing k <;> simp_all [exits, waits]

def Level : Piece → Prop
  | nop | op .. | exit _ => True
  | seq a b => a.Level ∧ b.Level
  | branch yes no => yes.Level ∧ no.Level
  | guard body | scope body => body.Level
  | loop cond body => cond.Level ∧ body.Level
  | expansion _ args body => args.Level ∧ body.Level ∧ ∀ w ∈ body.waits, w = 0

/-- With `n` strings, the piece takes `d` words and leaves `d'`. Its open exits lead out of a scope that starts
    `below` words below depth zero; it has none if there is no scope. -/
inductive Balanced (n : Nat) : Option Nat → Piece → Nat → Nat → Prop
  | nop {below} : Balanced n below .nop 0 0
  | op {below i plain} (prints : i.PrintsBelow n) :
    Balanced n below (.op i plain) i.op.operation.takes i.op.operation.leaves
  | seq {below a b d m d'} (ha : Balanced n below a d m) (hb : Balanced n below b m d') :
    Balanced n below (a.seq b) d d'
  | branch {below yes no d d'} (hy : Balanced n below yes d d') (hn : Balanced n below no d d') :
    Balanced n below (.branch yes no) (d + 1) d'
  | guard {below body d} (hb : Balanced n below body d d) : Balanced n below (.guard body) (d + 1) d
  | loop {below cond body d} (hc : Balanced n below cond d (d + 1)) (hb : Balanced n below body d d) :
    Balanced n below (.loop cond body) d d
  | exit {waiting} : Balanced n (some waiting) (.exit waiting) 0 0
  | scope {below body} (hb : Balanced n (some 0) body 0 0) (hw : ∀ w ∈ body.waits, w = 0) :
    Balanced n below (.scope body) 0 0
  | expansion {below callee args body} (ha : Balanced n below args 0 0) (hb : Balanced n (some 0) body 0 0) :
    Balanced n below (.expansion callee args body) 0 0
  | frame {below p d d'} (k : Nat) (h : Balanced n (below.map (· + k)) p d d') : Balanced n below p (d + k) (d' + k)

namespace Balanced
variable {n : Nat} {below : Option Nat} {p : Piece} {d d' : Nat}

theorem skip (d : Nat) : Balanced n below .nop d d := by
  have h : Balanced n below .nop (0 + d) (0 + d) := .frame d .nop
  rwa [Nat.zero_add] at h

/-- Code without exits may stand in any scope. -/
theorem closed (h : p.Balanced n none d d') : p.Balanced n below d d' := by
  generalize hnone : none = b at h
  induction h generalizing below with
  | nop => exact .nop
  | op prints => exact .op prints
  | seq _ _ iha ihb => exact .seq (iha hnone) (ihb hnone)
  | branch _ _ ihy ihn => exact .branch (ihy hnone) (ihn hnone)
  | guard _ ih => exact .guard (ih hnone)
  | loop _ _ ihc ihb => exact .loop (ihc hnone) (ihb hnone)
  | exit => exact nomatch hnone
  | scope hb hw => exact .scope hb hw
  | expansion _ hb iha => exact .expansion (iha hnone) hb
  | frame k _ ih => exact .frame k (ih (by rw [← hnone]; rfl))

theorem exits_eq_nil (h : p.Balanced n none d d') (k : Nat) : p.exits k = [] := by
  generalize hnone : none = b at h
  induction h generalizing k with
  | nop | op | scope => rfl
  | seq _ _ iha ihb => simp [Piece.exits, iha _ hnone, ihb _ hnone]
  | branch _ _ ihy ihn => simp [Piece.exits, ihy _ hnone, ihn _ hnone]
  | guard _ ih => exact ih _ hnone
  | loop _ _ ihc ihb => simp [Piece.exits, ihc _ hnone, ihb _ hnone]
  | exit => cases hnone
  | expansion _ _ iha => exact iha _ hnone
  | frame _ _ ih => exact ih k (by rw [← hnone]; rfl)

end Balanced
end Piece

namespace Machine

/-! ### Depth -/

/-- At least `d`, and no more if the depth is exact. -/
structure Deep (exact : Prop) (d n : Nat) : Prop where
  le : d ≤ n
  eq : exact → n = d

section
variable {exact : Prop} {d n : Nat}

theorem Deep.succ (h : Deep exact d n) : Deep exact (d + 1) (n + 1) :=
  ⟨Nat.succ_le_succ h.le, fun he => congrArg (· + 1) (h.eq he)⟩

theorem Deep.cons {top : List Word} (h : Deep exact (d + 1) top.length) :
    ∃ w rest, top = w :: rest ∧ Deep exact d rest.length := by
  cases top with
  | nil => exact absurd h.le (Nat.not_succ_le_zero d)
  | cons w rest => exact ⟨w, rest, rfl, Nat.le_of_succ_le_succ h.le, fun he => Nat.succ.inj (h.eq he)⟩

/-- The lower `k` of the words split off. -/
theorem Deep.split {k : Nat} {top : List Word} (h : Deep exact (d + k) top.length) :
    ∃ upper lower, top = upper ++ lower ∧ lower.length = k ∧ Deep exact d upper.length := by
  have hle := h.le
  refine ⟨top.take (top.length - k), top.drop (top.length - k), (List.take_append_drop ..).symm, ?_, ?_, ?_⟩
  · rw [List.length_drop]; omega
  · rw [List.length_take]; omega
  · intro he
    have := h.eq he
    rw [List.length_take]
    omega

end

def Fault.isData : Fault → Bool
  | .divisionByZero | .address _ | .argumentIndex | .stringByte .. => true
  | _ => false

/-- A flow leaves the words of `rest` as they are, and `d` words above them at its end. It leaves a scope that starts
    `below` words below them only with one of the given numbers of operands waiting, and those are on the stack. -/
def Flow.Keeps (exact : Prop) (below : Option Nat) (waits : List Nat) (rest : List Word) (d : Nat) : Flow → Prop
  | .next s => ∃ top, s.stack = top ++ rest ∧ Deep exact d top.length
  | .exit waiting s => waiting ∈ waits ∧
      ∃ top b, s.stack = top ++ rest ∧ below = some b ∧ Deep exact waiting (b + top.length)
  | .halt (.error f) => f.isData = true
  | .halt (.ok _) | .timeout => True

section
variable {env : Env} {exact : Prop} {below : Option Nat} {waits waits' : List Nat} {s : State}
  {top rest : List Word} {d d' : Nat}

theorem pop_cons {w : Word} {words : List Word} {k : Word → State → Outcome} (h : s.stack = w :: words) :
    s.pop k = k w { s with stack := words } := by
  simp [State.pop, h]

/-- An operation takes and leaves the words that it should. -/
theorem perform_keeps {imm : UInt64} {o : Operation} (ho : o ≠ .jump) (ho' : o ≠ .jumpIfZero) (hs : s.stack = top ++ rest)
    (hd : Deep exact o.takes top.length) (hprint : o = .printString → (PrintMode.stringIndex imm).toNat < env.strings.size) :
    (perform env imm s o).flow.Keeps exact below waits rest o.leaves := by
  cases o with
  | push f | load | argumentCount => exact ⟨_ :: top, congrArg _ hs, hd.succ⟩
  | jump => exact absurd rfl ho
  | jumpIfZero => exact absurd rfl ho'
  | unary f =>
    obtain ⟨a, top, rfl, h₁⟩ := hd.cons
    rw [perform, pop_cons hs]
    exact ⟨_ :: top, rfl, h₁.succ⟩
  | binary f =>
    obtain ⟨b, _, rfl, h₁⟩ := hd.cons
    obtain ⟨a, top, rfl, h₂⟩ := h₁.cons
    rw [perform, pop_cons hs, pop_cons rfl]
    exact ⟨_ :: top, rfl, h₂.succ⟩
  | divide f =>
    obtain ⟨b, _, rfl, h₁⟩ := hd.cons
    obtain ⟨a, top, rfl, h₂⟩ := h₁.cons
    rw [perform, pop_cons hs, pop_cons rfl]
    cases f a b with
    | none => rfl
    | some w => exact ⟨_ :: top, rfl, h₂.succ⟩
  | pop | store | print f =>
    obtain ⟨a, top, rfl, h₁⟩ := hd.cons
    rw [perform, pop_cons hs]
    exact ⟨top, rfl, h₁⟩
  | dup =>
    obtain ⟨a, top, rfl, h₁⟩ := hd.cons
    rw [perform, pop_cons hs]
    exact ⟨_ :: _ :: top, rfl, h₁.succ.succ⟩
  | loadIndirect =>
    obtain ⟨a, top, rfl, h₁⟩ := hd.cons
    rw [perform, pop_cons hs, State.atAddress]
    split
    · exact ⟨_ :: top, rfl, h₁.succ⟩
    · rfl
  | storeIndirect =>
    obtain ⟨w, _, rfl, h₁⟩ := hd.cons
    obtain ⟨a, top, rfl, h₂⟩ := h₁.cons
    rw [perform, pop_cons hs, pop_cons rfl, State.atAddress]
    split
    · exact ⟨_ :: top, rfl, h₂.succ⟩
    · rfl
  | returnVoid => trivial
  | returnValue =>
    obtain ⟨a, top, rfl, h₁⟩ := hd.cons
    rw [perform, pop_cons hs]
    trivial
  | printString =>
    rw [perform, Array.getElem?_eq_getElem (hprint rfl)]
    exact ⟨top, hs, hd⟩
  | printArgument =>
    obtain ⟨a, top, rfl, h₁⟩ := hd.cons
    rw [perform, pop_cons hs]
    cases env.args[a.toNat]? with
    | none => rfl
    | some text => exact ⟨top, rfl, h₁⟩
  | stringByte =>
    obtain ⟨a, top, rfl, h₁⟩ := hd.cons
    rw [perform, pop_cons hs]
    cases env.strings[imm.toNat]?.bind fun text => text.toUTF8.data[a.toNat]? with
    | none => rfl
    | some b => exact ⟨_ :: top, rfl, h₁.succ⟩

namespace Flow.Keeps
variable {f : Flow} {k : State → Flow}

theorem mono (h : f.Keeps exact below waits rest d) (hw : waits ⊆ waits') : f.Keeps exact below waits' rest d := by
  cases f with
  | exit waiting s => exact ⟨hw h.1, h.2⟩
  | next | timeout => exact h
  | halt r => cases r <;> exact h

theorem andThen (h : f.Keeps exact below waits rest d)
    (hk : ∀ t top, t.stack = top ++ rest → Deep exact d top.length → (k t).Keeps exact below waits rest d') :
    (f.andThen k).Keeps exact below waits rest d' := by
  cases f with
  | next t =>
    obtain ⟨top, hs, hd⟩ := h
    exact hk t top hs hd
  | exit | timeout => exact h
  | halt r => cases r <;> exact h

theorem choose {yes no : State → Flow} (hs : s.stack = top ++ rest) (hd : Deep exact (d + 1) top.length)
    (hyes : ∀ t top, t.stack = top ++ rest → Deep exact d top.length → (yes t).Keeps exact below waits rest d')
    (hno : ∀ t top, t.stack = top ++ rest → Deep exact d top.length → (no t).Keeps exact below waits rest d') :
    (Flow.choose s yes no).Keeps exact below waits rest d' := by
  obtain ⟨w, top, rfl, h₁⟩ := hd.cons
  rw [Flow.choose, hs]
  simp only [List.cons_append]
  split
  · exact hno _ top rfl h₁
  · exact hyes _ top rfl h₁

theorem iterate {cond body : State → Flow} {size : Nat} (n : Nat) (hs : s.stack = top ++ rest)
    (hd : Deep exact d top.length)
    (hcond : ∀ t top, t.stack = top ++ rest → Deep exact d top.length →
      (cond t).Keeps exact below waits rest (d + 1))
    (hbody : ∀ t top, t.stack = top ++ rest → Deep exact d top.length → (body t).Keeps exact below waits rest d) :
    (Flow.iterate cond body size n s).Keeps exact below waits rest d := by
  induction n generalizing s top with
  | zero => trivial
  | succ n ih =>
    refine (hcond s top hs hd).andThen fun t top ht hd => choose ht hd ?_ fun u top hu hd => ⟨top, hu, hd⟩
    exact fun u top hu hd => (hbody { u with pc := t.pc + 1 } top hu hd).andThen fun v top hv hd =>
      ih (s := { v with pc := s.pc }) hv hd

/-- The exits of a scope leave its depth exact if no operand waits at them. -/
theorem closeAt {stop : Nat} (h : f.Keeps exact (some 0) waits rest 0) (hw : exact → ∀ w ∈ waits, w = 0) :
    (f.closeAt stop).Keeps exact below waits' rest 0 := by
  cases f with
  | exit waiting s =>
    obtain ⟨hmem, top, b, hs, hb, hdeep⟩ := h
    cases hb
    refine ⟨top, hs, Nat.zero_le _, fun he => ?_⟩
    have := hdeep.eq he
    have := hw he waiting hmem
    omega
  | next => exact h
  | halt r => cases r <;> exact h
  | timeout => trivial

/-- What is kept above some words is kept above fewer. -/
theorem frame {lower : List Word} (h : f.Keeps exact (below.map (· + lower.length)) waits (lower ++ rest) d) :
    f.Keeps exact below waits rest (d + lower.length) := by
  cases f with
  | next s =>
    obtain ⟨top, hs, hd⟩ := h
    refine ⟨top ++ lower, by rw [hs, List.append_assoc], ?_, fun he => ?_⟩
    · rw [List.length_append]
      exact Nat.add_le_add_right hd.le _
    · rw [List.length_append, hd.eq he]
  | exit waiting s =>
    obtain ⟨hmem, top, b, hs, hb, hdeep⟩ := h
    obtain ⟨b, rfl, rfl⟩ := Option.map_eq_some_iff.mp hb
    refine ⟨hmem, top ++ lower, b, by rw [hs, List.append_assoc], rfl, ?_⟩
    rwa [List.length_append, Nat.add_comm top.length, ← Nat.add_assoc]
  | halt r => cases r <;> exact h
  | timeout => trivial

end Flow.Keeps

/-- A run of a balanced piece keeps its depths. -/
theorem exec_keeps {n fuel : Nat} {p : Piece} (h : p.Balanced n below d d') (hn : n ≤ env.strings.size)
    (hlevel : exact → p.Level) (hs : s.stack = top ++ rest) (hd : Deep exact d top.length) :
    (exec env fuel p s).Keeps exact below p.waits rest d' := by
  -- The induction is on the balance of the piece, where a frame is a case of its own, and not on the piece.
  induction h generalizing s top rest with
  | nop => exact ⟨top, hs, hd⟩
  | @op below i plain prints =>
    refine perform_keeps (operation_ne_jump plain).1 (operation_ne_jump plain).2 hs hd fun ho => ?_
    have : i.op = .printString := by
      revert ho
      cases i.op <;> first | exact fun _ => rfl | exact nofun
    exact Nat.lt_of_lt_of_le (prints this) hn
  | seq ha hb iha ihb =>
    refine ((iha (fun he => (hlevel he).1) hs hd).mono (List.subset_append_right ..)).andThen fun t top ht hd => ?_
    exact (ihb (fun he => (hlevel he).2) ht hd).mono (List.subset_append_left ..)
  | @branch below yes no d d' hy hn ihy ihn =>
    refine .choose hs hd ?_ ?_
    · intro t top ht hd
      refine ((ihy (s := { t with pc := s.pc + 1 }) (fun he => (hlevel he).1) ht hd).mono
        (List.subset_append_right ..)).andThen fun u top hu hd => ⟨top, hu, hd⟩
    · intro t top ht hd
      exact (ihn (s := { t with pc := s.pc + yes.size + 2 }) (fun he => (hlevel he).2) ht hd).mono
        (List.subset_append_left ..)
  | guard hb ih =>
    exact .choose hs hd (fun t top ht hd => ih (s := { t with pc := s.pc + 1 }) hlevel ht hd) fun t top ht hd =>
      ⟨top, ht, hd⟩
  | loop hc hb ihc ihb =>
    refine .iterate fuel hs hd ?_ ?_
    · exact fun t top ht hd => (ihc (fun he => (hlevel he).1) ht hd).mono (List.subset_append_right ..)
    · exact fun t top ht hd => (ihb (fun he => (hlevel he).2) ht hd).mono (List.subset_append_left ..)
  | exit =>
    refine ⟨List.mem_singleton_self _, top, _, hs, rfl, Nat.le_add_right .., fun he => ?_⟩
    rw [hd.eq he, Nat.add_zero]
  | scope hb hw ih => exact (ih hlevel hs hd).closeAt fun _ => hw
  | expansion ha hb iha ihb =>
    refine (iha (fun he => (hlevel he).1) hs hd).andThen fun t top ht hd => ?_
    exact (ihb (fun he => (hlevel he).2.1) ht hd).closeAt fun he => (hlevel he).2.2
  | frame k h ih =>
    -- The words of the frame are part of what the piece does not touch.
    obtain ⟨upper, lower, rfl, rfl, hd'⟩ := hd.split
    exact (ih hlevel (by rw [hs, List.append_assoc]) hd').frame

end
end Machine
end FlatCode
