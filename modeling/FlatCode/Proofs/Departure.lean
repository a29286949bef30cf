import FlatCode.Lower.Statement
import FlatCode.Proofs.Flow
import FlatCode.Proofs.Lookup

/-! Leaving for sure: which statements leave whatever a run does, and which pieces of code no run comes to the end of.
    A `repeat` runs at all only if its count is positive, so that it leaves for sure only if that can be read off a
    literal. -/

namespace FlatCode

/-! ### Statements -/

namespace Returns

def isPass (count : Expr) : Bool :=
  match count with
  | .literal .. => !Lower.isNoCount count
  | _ => false

mutual

/-- Whether a statement leaves whatever a run does. It is `leaves` but for a `repeat`, whose count must make it run. -/
def surely (asBranch : Bool) : Expr → Bool
  | .call _ ⟨name, args, labels, body, templateArgs, isBinding, isMethod⟩ =>
    let bare := args.isEmpty && templateArgs.isEmpty && !labels.any Option.isSome
    if isBinding || isMethod then false
    else if asBranch && bare && body.isSome then bodySurely body
    else if name == "return" then true
    else if name == "if" then
      match args with
      | [_, yes, no] => surely true yes && surely true no
      | _ => false
    else if name == "block" then bodySurely body
    else if name == "repeat" then
      match args with
      | [count] => isPass count && bodySurely body
      | _ => false
    else false
  | _ => false

def listSurely : List Expr → Bool
  | [] => false
  | e :: rest => surely false e || listSurely rest

def bodySurely : Option (List Expr) → Bool
  | none => false
  | some l => listSurely l

end

/-- A branch that is sure to leave has a block that is. -/
theorem listSurely_of_branchBody {e : Expr} {body : List Expr} (h : surely true e = true)
    (hbody : branchBody e = .ok body) : listSurely body = true := by
  obtain ⟨henvelope, hbody⟩ := branchBody_inv hbody
  obtain _ | _ | ⟨ts, name, args, labels, l, templateArgs, isBinding, isMethod⟩ := e
  · exact nomatch h
  · exact nomatch h
  · obtain rfl : l = some body := hbody
    simp only [isEnvelope, CallOf.isPlain, CallOf.hasLabels, Bool.and_eq_true, Bool.not_eq_true'] at henvelope
    obtain ⟨⟨⟨⟨⟨rfl, rfl⟩, hargs⟩, htemplates⟩, hlabels⟩, -⟩ := henvelope
    rw [surely.eq_def] at h
    simpa [hargs, htemplates, hlabels, bodySurely] using h

def LeavesBy (c : Call) : BuiltinClass → Prop
  | .ret => True
  | .ifElse => ∃ cond yes no, c.args = [cond, yes, no] ∧ surely true yes = true ∧ surely true no = true
  | .block => bodySurely c.body = true
  | .repeatLoop => ∃ count, c.args = [count] ∧ isPass count = true ∧ bodySurely c.body = true
  | _ => False

theorem surely_call {ts : List Transform} {c : Call} (h : surely false (.call ts c) = true) :
    c.isBinding = false ∧ ∃ b, c.builtin? = some b ∧ LeavesBy c b.cls := by
  obtain ⟨name, args, labels, body, templateArgs, isBinding, isMethod⟩ := c
  rw [surely.eq_def] at h
  dsimp only at h
  split at h
  · exact nomatch h
  case isFalse hplain =>
    obtain ⟨rfl, rfl⟩ : isBinding = false ∧ isMethod = false := by simpa using hplain
    simp only [Bool.false_and, Bool.false_eq_true, if_false] at h
    refine ⟨rfl, ?_⟩
    split at h
    case isTrue hname =>
      obtain rfl := eq_of_beq hname
      exact ⟨_, rfl, trivial⟩
    case isFalse =>
      split at h
      case isTrue hname =>
        obtain rfl := eq_of_beq hname
        split at h
        · exact ⟨_, rfl, _, _, _, rfl, by simpa using h⟩
        · exact nomatch h
      case isFalse =>
        split at h
        case isTrue hname =>
          obtain rfl := eq_of_beq hname
          exact ⟨_, rfl, h⟩
        case isFalse =>
          split at h
          case isTrue hname =>
            obtain rfl := eq_of_beq hname
            split at h
            · exact ⟨_, rfl, _, rfl, by simpa using h⟩
            · exact nomatch h
          case isFalse => exact nomatch h

end Returns

/-! ### Slots -/

namespace Piece

def SlotsBelow (n : Nat) : Piece → Prop
  | nop | exit _ => True
  | op i _ => i.op.namesSlot = true → i.imm.toNat < n
  | seq a b | branch a b | loop a b | expansion _ a b => a.SlotsBelow n ∧ b.SlotsBelow n
  | guard body | scope body => body.SlotsBelow n

theorem slotsBelow_of_code {n : Nat} {p : Piece} {target k : Nat}
    (h : ∀ i ∈ p.code target k, i.op.namesSlot = true → i.imm.toNat < n) : p.SlotsBelow n := by
  induction p generalizing target k with
  | nop | exit => trivial
  | op i => exact h i (List.mem_singleton_self i)
  | guard body ih => exact ih fun i hi => h i (List.mem_cons_of_mem _ hi)
  | scope body ih => exact ih h
  | seq a b iha ihb | expansion _ a b iha ihb =>
    exact ⟨iha fun i hi => h i (List.mem_append_left _ hi), ihb fun i hi => h i (List.mem_append_right _ hi)⟩
  | branch a b iha ihb =>
    have ha (i) (hi : i ∈ a.code target (k + 1)) : i ∈ (Piece.branch a b).code target k :=
      List.mem_append_left _ (List.mem_cons_of_mem _ hi)
    have hb (i) (hi : i ∈ b.code target (k + a.size + 2)) : i ∈ (Piece.branch a b).code target k :=
      List.mem_append_right _ (List.mem_cons_of_mem _ hi)
    exact ⟨iha fun i hi => h i (ha i hi), ihb fun i hi => h i (hb i hi)⟩
  | loop a b iha ihb =>
    have ha (i) (hi : i ∈ a.code target k) : i ∈ (Piece.loop a b).code target k := by simp [code, hi]
    have hb (i) (hi : i ∈ b.code target (k + a.size + 1)) : i ∈ (Piece.loop a b).code target k := by simp [code, hi]
    exact ⟨iha fun i hi => h i (ha i hi), ihb fun i hi => h i (hb i hi)⟩

end Piece

namespace Machine

theorem le_foldl_of_mem {α : Type} {f : Nat → α → Nat} (hgrows : ∀ n a, n ≤ f n a) {a : α} {k : Nat}
    (hk : ∀ n, k ≤ f n a) {l : List α} (ha : a ∈ l) (n : Nat) : k ≤ l.foldl f n := by
  have hfold (l : List α) (n : Nat) : n ≤ l.foldl f n := by
    induction l generalizing n with
    | nil => exact Nat.le_refl n
    | cons b l ih => exact Nat.le_trans (hgrows n b) (ih _)
  induction l generalizing n with
  | nil => exact nomatch ha
  | cons b l ih =>
    rcases List.mem_cons.mp ha with rfl | ha
    · exact Nat.le_trans (hk n) (hfold l _)
    · exact ih ha _

variable {env : Env} {i : Instruction} {fuel : Nat} {s : State}

/-- A run has the slots that its code names. -/
theorem lt_slotCount {code : Array Instruction} (hmax : slotCount code ≤ maxSlots)
    (hi : i ∈ code.toList) (hslot : i.op.namesSlot = true) : i.imm.toNat < slotCount code := by
  have hcounted : min (i.imm.toNat + 1) (2 ^ 64 - 1) ≤ slotCount code := by
    rw [slotCount, ← Array.foldl_toList]
    refine le_foldl_of_mem (fun n j => ?_) (fun n => ?_) hi 0
    · split
      · exact Nat.le_max_left ..
      · exact Nat.le_refl n
    · rw [if_pos hslot]
      exact Nat.le_max_right ..
  simp only [maxSlots] at hmax
  omega

section
variable {env : Env} {s t : State}

theorem size_of_perform {imm : UInt64} {o : Operation} (h : perform env imm s o = .continue t) :
    t.slots.size = s.slots.size := by
  cases o <;> simp only [perform, State.pop, State.push, State.atAddress, State.write, State.jumpTo] at h <;> grind

theorem size_of_step (h : step env i s = .continue t) : t.slots.size = s.slots.size :=
  size_of_perform (s := { s with pc := s.pc + 1 }) h

theorem Steps.size_slots {lo hi : Nat} {trace : List Nat} (h : Steps env lo hi trace s t) :
    t.slots.size = s.slots.size := by
  induction h with
  | refl => rfl
  | cons _ _ _ step _ ih => exact ih.trans (size_of_step step)

end

def Flow.Sized (n : Nat) : Flow → Prop
  | .next s | .exit _ s => s.slots.size = n
  | .halt _ | .timeout => True

namespace Flow.Sized
variable {n : Nat} {f : Flow} {k : State → Flow}

theorem andThen (h : f.Sized n) (hk : ∀ s, s.slots.size = n → (k s).Sized n) : (f.andThen k).Sized n := by
  cases f with
  | next s => exact hk s h
  | exit | halt | timeout => exact h

theorem closeAt {stop : Nat} (h : f.Sized n) : (f.closeAt stop).Sized n := by
  cases f <;> exact h

theorem choose {s : State} {yes no : State → Flow} (hs : s.slots.size = n)
    (hy : ∀ t, t.slots.size = n → (yes t).Sized n) (hn : ∀ t, t.slots.size = n → (no t).Sized n) :
    (Flow.choose s yes no).Sized n := by
  unfold Flow.choose
  split
  · trivial
  · split
    · exact hn _ hs
    · exact hy _ hs

theorem iterate {cond body : State → Flow} (hc : ∀ s, s.slots.size = n → (cond s).Sized n)
    (hb : ∀ s, s.slots.size = n → (body s).Sized n) (size passes : Nat) {s : State} (hs : s.slots.size = n) :
    (Flow.iterate cond body size passes s).Sized n := by
  induction passes generalizing s with
  | zero => trivial
  | succ passes ih =>
    refine (hc s hs).andThen fun t ht => choose ht (fun u hu => ?_) fun u hu => hu
    exact (hb { u with pc := t.pc + 1 } hu).andThen fun v hv => ih (s := { v with pc := s.pc }) hv

end Flow.Sized

/-- Code keeps the number of slots. -/
theorem exec_sized {n : Nat} (p : Piece) (hs : s.slots.size = n) : (exec env fuel p s).Sized n := by
  induction p generalizing s with
  | nop | exit => exact hs
  | op i =>
    change (step env i s).flow.Sized _
    cases h : step env i s with
    | «continue» t => exact (size_of_step h).trans hs
    | finished | fault => trivial
  | seq a b iha ihb => exact (iha hs).andThen fun t ht => ihb ht
  | branch yes no ihy ihn =>
    refine .choose hs (fun t ht => ?_) fun t ht => ihn ht
    exact (ihy (s := { t with pc := s.pc + 1 }) ht).andThen fun u hu => hu
  | guard body ih => exact .choose hs (fun t ht => ih ht) fun t ht => ht
  | loop cond body ihc ihb => exact .iterate (fun t ht => ihc ht) (fun t ht => ihb ht) body.size fuel hs
  | scope body ih => exact (ih hs).closeAt
  | expansion _ args body iha ihb => exact (iha hs).andThen fun t ht => (ihb ht).closeAt

theorem size_of_next {p : Piece} {t : State} (h : exec env fuel p s = .next t) : t.slots.size = s.slots.size := by
  have hsized : (exec env fuel p s).Sized s.slots.size := exec_sized p rfl
  rwa [h] at hsized

end Machine

/-! ### Pieces -/

namespace Piece
open Machine

/-- No run of the piece comes to its end from slots with the property `I`, if it has all slots that the piece names. -/
def DepartsFrom (I : Array Word → Prop) (p : Piece) : Prop :=
  ∀ env fuel s t, p.SlotsBelow s.slots.size → I s.slots → exec env fuel p s ≠ .next t

abbrev Departs (p : Piece) : Prop := p.DepartsFrom fun _ => True

/-- A run that comes to the end of the piece leaves slots with the property `I`. -/
def Leads (I : Array Word → Prop) (p : Piece) : Prop :=
  ∀ env fuel s t, p.SlotsBelow s.slots.size → exec env fuel p s = .next t → I t.slots

theorem next_of_andThen {f : Flow} {k : State → Flow} {t : State} (h : f.andThen k = .next t) :
    ∃ s, f = .next s ∧ k s = .next t := by
  cases f with
  | next s => exact ⟨s, rfl, h⟩
  | exit | halt | timeout => exact nomatch h

theorem next_of_choose {s t : State} {yes no : State → Flow} (h : Flow.choose s yes no = .next t) :
    ∃ w rest, s.stack = w :: rest ∧
      (w ≠ 0 ∧ yes { s with stack := rest } = .next t ∨ w = 0 ∧ no { s with stack := rest } = .next t) := by
  unfold Flow.choose at h
  split at h
  · exact nomatch h
  case h_2 w rest hstack =>
    split at h
    case isTrue hw => exact ⟨w, rest, hstack, .inr ⟨hw, h⟩⟩
    case isFalse hw => exact ⟨w, rest, hstack, .inl ⟨hw, h⟩⟩

section
variable {p q : Piece} {I : Array Word → Prop}

theorem Departs.seqLeft (hp : p.Departs) : (p.seq q).Departs := by
  intro env fuel s t hslots _ h
  obtain ⟨u, hu, -⟩ := next_of_andThen h
  exact hp env fuel s u hslots.1 trivial hu

theorem DepartsFrom.seq (hp : p.Leads I) (hq : q.DepartsFrom I) : (p.seq q).Departs := by
  intro env fuel s t hslots _ h
  obtain ⟨u, hu, h⟩ := next_of_andThen h
  exact hq env fuel u t (size_of_next hu ▸ hslots.2) (hp env fuel s u hslots.1 hu) h

theorem Departs.seqRight (hq : q.Departs) : (p.seq q).Departs := .seq (fun _ _ _ _ _ _ => trivial) hq

theorem Departs.branch (hp : p.Departs) (hq : q.Departs) : (Piece.branch p q).Departs := by
  intro env fuel s t hslots _ h
  obtain ⟨w, rest, -, ⟨-, h⟩ | ⟨-, h⟩⟩ := next_of_choose h
  · obtain ⟨u, hu, -⟩ := next_of_andThen h
    exact hp env fuel { s with pc := s.pc + 1, stack := rest } u hslots.1 trivial hu
  · exact hq env fuel { s with pc := s.pc + p.size + 2, stack := rest } t hslots.2 trivial h

theorem departs_exit (waiting : Nat) : (Piece.exit waiting).Departs := fun _ _ _ _ _ _ h => nomatch h

end

end Piece

namespace Machine

variable {env : Env} {i : Instruction} {s t : State}

theorem isReturn_of_continue (h : step env i s = .continue t) : i.op.isReturn = false := by
  obtain ⟨op, imm⟩ := i
  cases op with
  | returnVoid => cases h
  | returnI32 | returnI64 | returnF32 | returnF64 =>
    simp only [step, Opcode.operation, perform, State.pop] at h
    split at h <;> cases h
  | _ => rfl

theorem step_of_next {fuel : Nat} {plain : i.op.isJump = false}
    (h : exec env fuel (.op i plain) s = .next t) : step env i s = .continue t := by
  change (step env i s).flow = .next t at h
  cases hstep : step env i s with
  | «continue» u =>
    rw [hstep] at h
    cases h
    rfl
  | finished | fault =>
    rw [hstep] at h
    exact nomatch h

end Machine

namespace Piece
open Machine

variable {i : Instruction} {w : Width} {plain : i.op.isJump = false}

theorem departs_return (h : i.op.isReturn = true) : (Piece.op i plain).Departs := by
  intro env fuel s t _ _ hnext
  rw [isReturn_of_continue (step_of_next hnext)] at h
  exact nomatch h

/-! ### Counting down -/

/-- A run that comes to the end of the piece from slots with the property `I` leaves a word that is not zero. -/
def Affirms (I : Array Word → Prop) (p : Piece) : Prop :=
  ∀ env fuel s t, I s.slots → exec env fuel p s = .next t → ∃ w rest, t.stack = w :: rest ∧ w ≠ 0

/-- A loop whose first pass is certain and leaves. -/
theorem DepartsFrom.loop {cond body : Piece} {I : Array Word → Prop} (hc : cond.Affirms I) (hb : body.Departs) :
    (Piece.loop cond body).DepartsFrom I := by
  intro env fuel s t hslots hI h
  change Flow.iterate (exec env fuel cond) (exec env fuel body) body.size fuel s = .next t at h
  cases fuel with
  | zero => exact nomatch h
  | succ n =>
    obtain ⟨u, hu, h⟩ := next_of_andThen h
    obtain ⟨w, rest, hstack, hw⟩ := hc env (n + 1) s u hI hu
    obtain ⟨w', rest', hstack', ⟨-, h⟩ | ⟨hzero, -⟩⟩ := next_of_choose h
    · obtain ⟨v, hv, -⟩ := next_of_andThen h
      exact hb env (n + 1) { u with pc := u.pc + 1, stack := rest' } v (size_of_next hu ▸ hslots.2) trivial hv
    · cases hstack.symm.trans hstack'
      exact hw hzero

def Counts (w : Width) (v : Word) : Prop :=
  match w with
  | .i32 => 0 < v.int32
  | .i64 => 0 < v.int64
  | .u64 => v ≠ 0
  | .f32 | .f64 => False

def Counting (w : Width) (counter : Nat) (slots : Array Word) : Prop :=
  Counts w (slots.getD (UInt64.ofNat counter).toNat 0)

def passesLeft (w : Width) (counter : Nat) : Piece :=
  (op { op := .loadLocal, imm := UInt64.ofNat counter } rfl).seq
    ((op { op := Opcode.push w, imm := Lower.intWord w 0 } (by cases w <;> rfl)).seq
      (op { op := Opcode.compare (if w = .u64 then .notEqual else .greater) w } (by cases w <;> rfl)))

theorem ofBool_ne_zero {b : Bool} (h : b = true) : Word.ofBool b ≠ 0 := by
  subst h
  decide

theorem affirms_passesLeft (w : Width) (counter : Nat) : (passesLeft w counter).Affirms (Counting w counter) := by
  intro env fuel s t hcounts h
  obtain ⟨s₁, hload, h⟩ := next_of_andThen h
  obtain ⟨s₂, hpush, hcompare⟩ := next_of_andThen h
  have hload := step_of_next hload
  have hpush := step_of_next hpush
  have hcompare := step_of_next hcompare
  cases hload
  cases w with
  | f32 | f64 => exact hcounts.elim
  | i32 | i64 =>
    cases hpush
    cases hcompare
    exact ⟨_, _, rfl, ofBool_ne_zero (decide_eq_true hcounts)⟩
  | u64 =>
    cases hpush
    cases hcompare
    exact ⟨_, _, rfl, ofBool_ne_zero (bne_iff_ne.mpr hcounts)⟩

theorem toInt32_toUInt32_toUInt64 (n : Int64) : n.toUInt64.toUInt32.toInt32 = n.toInt32 := by
  apply Int32.toBitVec.inj
  change BitVec.setWidth 32 n.toBitVec = BitVec.signExtend 32 n.toBitVec
  exact (BitVec.signExtend_eq_setWidth_of_le n.toBitVec (by decide)).symm

/-- A literal that makes a `repeat` run is pushed as a counter that has passes left. -/
theorem counts_of_literal {ts : List Transform} {l : Literal} (hpass : Returns.isPass (.literal ts l) = true)
    (hpush : Lower.literalPush l = .ok i) (hw : (Kind.ofLiteral l).width? = some w)
    (hkind : (Kind.ofLiteral l).isInteger = true ∨ Kind.ofLiteral l = .bool) :
    ∃ f, i.op.operation = .push f ∧ Counts w (f i.imm) := by
  have hpass : Lower.isNoCount (.literal ts l) = false := by simpa [Returns.isPass] using hpass
  cases l with
  | int n iw =>
    have hn : ¬ n ≤ 0 := of_decide_eq_false hpass
    rw [Int64.le_iff_toInt_le] at hn
    cases iw with
    | i32 =>
      rw [Lower.literalPush] at hpush
      split at hpush
      case isFalse => cases hpush
      case isTrue hrange =>
        cases hpush
        cases hw
        refine ⟨_, rfl, ?_⟩
        -- The literal is in range, so that its sign is that of the 32 bits that are pushed.
        change 0 < (n.toUInt64.toUInt32.toInt32.toInt64.toUInt64).toUInt32.toInt32
        rw [toInt32_toUInt32_toUInt64, toInt32_toUInt32_toUInt64, hrange, Int32.lt_iff_toInt_lt]
        rw [← hrange, Int32.toInt_toInt64] at hn
        exact Int.not_le.mp hn
    | i64 =>
      cases hpush
      cases hw
      refine ⟨_, rfl, ?_⟩
      change 0 < n.toUInt64.toInt64
      rw [Int64.lt_iff_toInt_lt]
      exact Int.not_le.mp hn
  | uint n =>
    cases hpush
    cases hw
    exact ⟨_, rfl, of_decide_eq_false hpass⟩
  | bool b =>
    cases hpush
    cases hw
    obtain rfl : b = true := by simpa [Lower.isNoCount] using hpass
    exact ⟨_, rfl, show (0 : Int32) < 1 by decide⟩
  | float bits fw => cases fw <;> simp [Kind.ofLiteral, Kind.isInteger] at hkind
  | string text => cases hw

/-- A counter that is pushed and stored. -/
theorem leads_counting {f : UInt64 → Word}
    {counter : Nat} (hop : i.op.operation = .push f) (hcounts : Counts w (f i.imm)) :
    ((op i plain).seq (op { op := .storeLocal, imm := UInt64.ofNat counter } rfl)).Leads (Counting w counter) := by
  intro env fuel s t hslots h
  obtain ⟨s₁, hpush, hstore⟩ := next_of_andThen h
  have hpush := step_of_next hpush
  have hstore := step_of_next hstore
  rw [step, hop] at hpush
  cases hpush
  cases hstore
  have hlt : (UInt64.ofNat counter).toNat < s.slots.size := hslots.2 rfl
  change Counts w ((s.slots.setIfInBounds (UInt64.ofNat counter).toNat (f i.imm)).getD (UInt64.ofNat counter).toNat 0)
  rwa [Array.getD_eq_getD_getElem?, Array.getElem?_setIfInBounds_self_of_lt hlt]

end Piece
end FlatCode
