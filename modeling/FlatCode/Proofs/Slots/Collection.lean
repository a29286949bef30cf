import FlatCode.Proofs.Slots.Math

/-! Where something is lowered there is room for it: the slots of the scope are taken, and those that are not are free
    to use. Of the bindings in scope only those may be stored to that are changed by name. The code of collections,
    strings and the arguments of the run keeps to this. -/

namespace FlatCode

/-! ### What is changed by name -/

/-- Whether a call is a `for`, whose first two arguments may declare names for all of it. -/
def CallOf.IsFor (c : Call) : Prop := c.isBinding = false ∧ ∃ b, c.builtin? = some b ∧ b.cls = .forLoop

theorem CallOf.not_isFor_of_cls {c : Call} {b : Builtin} (hb : c.builtin? = some b) (hcls : b.cls ≠ .forLoop) :
    ¬c.IsFor := by
  rintro ⟨-, b', hb', hfor⟩
  cases hb.symm.trans hb'
  exact hcls hfor

theorem CallOf.not_isFor_of_name {c : Call} {name : String} (hname : c.name = name)
    (h : (Builtin.lookup? name).map Builtin.cls ≠ some .forLoop) : ¬c.IsFor := by
  rintro ⟨-, b, hb, hfor⟩
  rw [← hname, CallOf.lookup?_of_builtin? hb] at h
  exact h (congrArg some hfor)

namespace Expr

mutual

/-- An expression changes the binding that is called `x` where it stands: `x` is the target of an `assign`, an
    `increment` or a `decrement` in it, and is not bound anew on the way there. -/
inductive Changes : Expr → String → Prop
  | target {ts ts' c b x rest} :
    c.isBinding = false → c.builtin? = some b → (b.cls = .assign ∨ ∃ op, b.cls = .step op) →
    c.args = .name ts' x :: rest → Changes (.call ts c) x
  | argument {ts c before after a x} :
    c.args = before ++ a :: after → (c.IsFor → ∀ b ∈ before, b.boundName? ≠ some x) → Changes a x → Changes (.call ts c) x
  | block {ts c l x} :
    c.body = some l → (c.IsFor → ∀ b ∈ c.args.take 2, b.boundName? ≠ some x) → ChangesIn l x → Changes (.call ts c) x

/-- Statements change a binding: one of them does, and none before it binds the name anew. -/
inductive ChangesIn : List Expr → String → Prop
  | head {e l x} : Changes e x → ChangesIn (e :: l) x
  | tail {e l x} : e.boundName? ≠ some x → ChangesIn l x → ChangesIn (e :: l) x

end

theorem ChangesIn.split {l : List Expr} {x : String} (h : ChangesIn l x) :
    ∃ before a after, l = before ++ a :: after ∧ (∀ b ∈ before, b.boundName? ≠ some x) ∧ a.Changes x := by
  induction l with
  | nil => exact nomatch h
  | cons e l ih =>
    cases h with
    | head h => exact ⟨[], e, l, rfl, nofun, h⟩
    | tail hname h =>
      obtain ⟨before, a, after, rfl, hbefore, ha⟩ := ih h
      exact ⟨e :: before, a, after, rfl, List.forall_mem_cons.mpr ⟨hname, hbefore⟩, ha⟩

end Expr

namespace Lower
open Stateful

/-- The slot of the binding that is called `x` is in `G`, if it can be changed; the arguments of the run cannot be. -/
def Grants (G : Nat → Prop) (locals : Locals) (x : String) : Prop :=
  ∀ l, locals.lookup x = some l → l.mutable = true → l.isArguments = false → G l.slot

def Granted (G : Nat → Prop) (locals : Locals) (e : Expr) : Prop := ∀ x, e.Changes x → Grants G locals x

def GrantedIn (G : Nat → Prop) (locals : Locals) (l : List Expr) : Prop := ∀ x, Expr.ChangesIn l x → Grants G locals x

variable {type : BindingType} {checked : Bool} {c : Call} {e position target : Expr} {l : List Expr}
  {ts : List Transform} {base index m'' : Nat} {builtin x : String} {w : Width}

section
variable {G : Nat → Prop} {locals : Locals}

theorem Granted.args (h : Granted G locals (.call ts c)) (hc : ¬c.IsFor) : ∀ a ∈ c.args, Granted G locals a := by
  intro a ha x hx
  obtain ⟨before, after, hargs⟩ := List.append_of_mem ha
  exact h x (.argument hargs (absurd · hc) hx)

theorem Granted.argsIn (h : Granted G locals (.call ts c)) : GrantedIn G locals c.args := by
  intro x hx
  obtain ⟨before, a, after, hargs, hbefore, ha⟩ := hx.split
  exact h x (.argument hargs (fun _ => hbefore) ha)

theorem Granted.args_of_isCallTo {name : String} (h : Granted G locals (.call ts c))
    (hc : (Expr.call ts c).isCallTo name = true) (hname : (Builtin.lookup? name).map Builtin.cls ≠ some .forLoop) :
    ∀ a ∈ c.args, Granted G locals a := by
  simp only [Expr.isCallTo, Bool.and_eq_true, beq_iff_eq] at hc
  exact h.args (CallOf.not_isFor_of_name hc.2 hname)

theorem Granted.body (h : Granted G locals (.call ts c))
    (hc : c.IsFor → c.args = []) (hl : c.body = some l) : GrantedIn G locals l := by
  intro x hx
  refine h x (.block hl (fun hfor b hb => ?_) hx)
  rw [hc hfor] at hb
  exact absurd hb List.not_mem_nil

theorem GrantedIn.head (h : GrantedIn G locals (e :: l)) : Granted G locals e :=
  fun x hx => h x (.head hx)

end

def Context.resultSlot? (ctx : Context) : Option Nat :=
  match ctx.target with
  | .run _ => none
  | .expansion _ slot => slot

/-- There is room for what is lowered with `locals` in scope: their slots are among the `m` that are taken, as is the
    slot of the result, and those that are not taken are in `G`. -/
structure Room (G : Nat → Prop) (m : Nat) (ctx : Context) (locals : Locals) : Prop where
  fresh : Fresh G m
  locals : ∀ l ∈ locals, l.2.slot < m
  result : ∀ slot, ctx.resultSlot? = some slot → slot < m ∧ G slot

def Bound (m : Nat) (locals : Locals) (l : Local) (m' : Nat) : Prop :=
  l.slot < m' ∧ (m ≤ l.slot ∨ l.isArguments = true ∧ ∃ x, (x, l) ∈ locals)

def Entered (m : Nat) (e : Expr) (locals locals' : Locals) (m' : Nat) : Prop :=
  match e.boundName? with
  | none => locals' = locals
  | some x => ∃ l, locals' = (x, l) :: locals ∧ Bound m locals l m'

section
variable {G : Nat → Prop} {m m' : Nat} {ctx ctx' : Context} {locals locals' : Locals} {e : Expr}

namespace Room

theorem later (h : Room G m ctx locals) (hm : m ≤ m') : Room G m' ctx locals where
  fresh := h.fresh.mono hm
  locals l hl := Nat.lt_of_lt_of_le (h.locals l hl) hm
  result slot hslot := (h.result slot hslot).imp_left fun hlt => Nat.lt_of_lt_of_le hlt hm

theorem slot_lt (h : Room G m ctx locals) {x : String} {l : Local} (hl : locals.lookup x = some l) : l.slot < m :=
  h.locals _ (mem_of_lookup hl)

theorem behind (h : Room G m ctx locals) : Room G m ctx.behind locals := ⟨h.fresh, h.locals, h.result⟩

theorem inside (h : Room G m ctx locals) (hctx : ctx.inside e = .ok ctx') : Room G m ctx' locals := by
  obtain ⟨effects, -, rfl⟩ := Context.inside_inv hctx
  exact ⟨h.fresh, h.locals, h.result⟩

theorem entered (h : Room G m ctx locals) (hm : m ≤ m') (hl : Entered m e locals locals' m') :
    Room G m' ctx locals' := by
  unfold Entered at hl
  split at hl
  · exact hl ▸ h.later hm
  · obtain ⟨l, rfl, hslot, -⟩ := hl
    exact ⟨h.fresh.mono hm, List.forall_mem_cons.mpr ⟨hslot, (h.later hm).locals⟩, (h.later hm).result⟩

end Room

theorem Bound.later {l : Local} (h : Bound m locals l m') (hm : m' ≤ m'') : Bound m locals l m'' :=
  ⟨Nat.lt_of_lt_of_le h.1 hm, h.2⟩

theorem Bound.earlier {l : Local} {m₀ : Nat} (h : Bound m locals l m') (hm : m₀ ≤ m) : Bound m₀ locals l m' :=
  ⟨h.1, h.2.imp_left (Nat.le_trans hm)⟩

theorem Entered.later (h : Entered m e locals locals' m') (hm : m' ≤ m'') : Entered m e locals locals' m'' := by
  unfold Entered at h ⊢
  split at h
  · exact h
  · obtain ⟨l, hlocals, hl⟩ := h
    exact ⟨l, hlocals, hl.later hm⟩

/-- A new binding may be changed, and any other that might be before. -/
theorem Entered.grants (h : Entered m e locals locals' m') (hG : Fresh G m)
    (hx : e.boundName? ≠ some x → Grants G locals x) : Grants G locals' x := by
  unfold Entered at h
  split at h
  case h_1 hname =>
    subst h
    exact hx (by simp [hname])
  case h_2 y hname =>
    obtain ⟨b, rfl, -, hb⟩ := h
    intro l hl hmutable harguments
    rw [List.lookup_cons] at hl
    split at hl
    case h_1 =>
      cases hl
      rcases hb with hb | ⟨hb, -⟩
      · exact hG _ hb
      · exact absurd (hb.symm.trans harguments) nofun
    case h_2 hne =>
      refine hx (fun h => ?_) l hl hmutable harguments
      cases hname.symm.trans h
      simp at hne

theorem GrantedIn.tail (hl : GrantedIn G locals (e :: l)) (hG : Fresh G m)
    (h : Entered m e locals locals' m') : GrantedIn G locals' l :=
  fun x hx => h.grants hG fun hname => hl x (.tail hname hx)

end

structure Emitter.Frames (E : Emitter) : Prop where
  expr : ∀ {G : Nat → Prop} {m : Nat} {ctx : Context} {locals : Locals} {e : Expr}, Room G m ctx locals →
    Granted G locals e → Tidy G m (E.expr ctx locals e)
  statement : ∀ {G : Nat → Prop} {m : Nat} {ctx : Context} {locals : Locals} {e : Expr}, Room G m ctx locals →
    Granted G locals e → Respects G m (E.statement ctx locals e) (Entered m e locals)

section
variable {E : Emitter} (hE : E.Frames) {G : Nat → Prop} {m : Nat} {ctx : Context} {locals : Locals}
  (hroom : Room G m ctx locals)
include hE hroom

namespace Emitter.Frames

theorem exprAt {e : Expr} {w : Width} (he : Granted G locals e) : Tidy G m (E.exprAt ctx locals e w) :=
  (hE.expr hroom he).bind fun _ _ _ _ => tidy_coerce

theorem condition {e : Expr} {fault : TypeError} (he : Granted G locals e) :
    Tidy G m (E.condition ctx locals fault e) :=
  (hE.expr hroom he).bind fun _ _ _ _ => .ite (fun _ => .throw) fun _ => .pure fun _ _ => trivial

theorem statements {l rest : List Expr} (hl : GrantedIn G locals (l ++ rest)) :
    Respects G m (E.statements ctx locals l) fun locals' m' => Room G m' ctx locals' ∧ GrantedIn G locals' rest := by
  induction l generalizing m locals with
  | nil => exact .pure fun _ hm => ⟨hroom.later hm, hl⟩
  | cons e l ih =>
    refine (hE.statement hroom hl.head).bind fun locals₁ m₁ hm₁ hentered => ?_
    exact ih (hroom.entered hm₁ hentered) (hl.tail hroom.fresh hentered)

theorem block {l : List Expr} (hl : GrantedIn G locals l) : Tidy G m (E.block ctx locals l) :=
  (hE.statements hroom (by rwa [List.append_nil])).bind fun _ _ _ _ => .pure fun _ _ => trivial

theorem blockValue {l : List Expr} (hl : GrantedIn G locals l) : Tidy G m (E.blockValue ctx locals l) := by
  unfold Emitter.blockValue
  split
  case h_1 => exact .throw
  case h_2 last hlast =>
    obtain ⟨init, rfl⟩ := List.getLast?_eq_some_iff.mp hlast
    rw [List.dropLast_concat]
    refine (hE.statements hroom hl).bind fun inner m₁ _ ⟨hroom₁, hgranted⟩ => ?_
    refine .check fun _ => .ite (fun _ => ?_) fun _ => hE.expr hroom₁ hgranted.head
    exact (hE.statement hroom₁ hgranted.head).bind fun _ _ _ _ =>
      (tidy_emitWith rfl rfl).andThen <| .pure fun _ _ => trivial

end Emitter.Frames

/-! ### Literals -/

/-- Elements are stored in slots in a row. -/
theorem tidy_elements {next : Width} {slot : Nat} {args : List Expr}
    (hargs : ∀ e ∈ args, Granted G locals e) (hslots : slot + args.length ≤ m) (hG : Fresh G slot) :
    Tidy G m (emitElements E ctx locals builtin w next slot args) := by
  induction args generalizing w next slot with
  | nil => exact .pure fun _ _ => trivial
  | cons e rest ih =>
    rw [List.length_cons] at hslots
    refine (hE.expr hroom (hargs e List.mem_cons_self)).bind fun _ m₁ hm₁ _ => .check fun _ => ?_
    refine tidy_coerce.andThen <| (tidy_store (by omega) (hG slot (Nat.le_refl _))).andThen ?_
    refine (ih (fun e he => hargs e (List.mem_cons_of_mem _ he)) (by omega) (hG.mono (by omega))).later hm₁

theorem tidy_literal (hargs : ∀ e ∈ c.args, Granted G locals e) : Tidy G m (emitLiteral E ctx locals c type) := by
  refine .liftBind fun _ _ => .liftBind fun ⟨even, odd⟩ _ => respects_newSlots.bind fun base m₁ hm₁ ⟨hbase, hend⟩ => ?_
  have hheader : 1 ≤ headerSlots type := by unfold headerSlots; split <;> omega
  have hfresh := hroom.fresh.mono hbase
  have hrest : Tidy G m₁ (do
      emitElements E ctx locals c.name even odd (base + headerSlots type) c.args
      emitWith .addressOfLocal (UInt64.ofNat base)) :=
    (tidy_elements hE (hroom.later hm₁) hargs (by omega) (hfresh.mono (by omega))).andThen <| tidy_address (by omega)
  refine (tidy_emitWith rfl rfl).andThen <| (tidy_store (by omega) (hfresh _ (Nat.le_refl _))).andThen <|
    .ite (fun hvector => ?_) fun _ => hrest
  have htwo : headerSlots type = 2 := if_pos hvector
  exact (tidy_emitWith rfl rfl).andThen <| (tidy_store (by omega) (hfresh _ (by omega))).andThen hrest

theorem tidy_collection (he : Granted G locals e) : Tidy G m (emitCollection E ctx locals e) := by
  unfold emitCollection
  split
  · split
    · exact .throw
    case h_2 l hl =>
      split
      · exact .throw
      · exact (tidy_load (hroom.slot_lt hl)).andThen <| .pure fun _ _ => trivial
  case h_2 c =>
    refine .liftBind fun type? htype => ?_
    cases type? with
    | none => exact .throw
    | some type =>
      have hfor : ¬c.IsFor := by
        obtain ⟨form, hform, -⟩ := BindingType.ofLiteral?_inv htype
        unfold BindingType.form? at hform
        split at hform
        case h_4 => exact nomatch hform
        all_goals exact CallOf.not_isFor_of_name (by assumption) (by nofun)
      refine .liftBind fun ctx' hinside => ?_
      exact (tidy_literal hE (hroom.inside hinside) (he.args hfor)).andThen <| .pure fun _ _ => trivial
  · exact .throw

/-! ### Indices -/

omit hE hroom in
theorem tidy_indexWidth : Tidy G m (indexWidth ctx locals builtin e) :=
  tidy_operand.bind fun _ _ _ _ => .check fun _ => .of_nop fun s a t _ h => by
    obtain ⟨-, rfl⟩ := lift_eq_ok.mp h
    exact ⟨.nop s, trivial⟩

theorem respects_spillIndex (he : Granted G locals e) :
    Respects G m (spillIndex E ctx locals builtin e) fun r m' => r.1 < m' ∧ G r.1 :=
  tidy_indexWidth.bind fun w m₁ hm₁ _ => respects_newSlot.bind fun slot m₂ hm₂ hslot =>
    (hE.exprAt (hroom.later (Nat.le_trans hm₁ hm₂)) he).andThen <|
      (tidy_store hslot.2 (hroom.fresh slot (by omega))).andThen <|
      .pure fun m₃ hm₃ => ⟨Nat.lt_of_lt_of_le hslot.2 hm₃, hroom.fresh slot (by omega)⟩

omit hE hroom in
theorem tidy_checkRange {bound : Lowering Unit} {message : String} (hindex : index < m)
    (hbound : Tidy G m bound) : Tidy G m (checkRange w index bound message) :=
  (tidy_failIfNegative hindex).andThen <| (tidy_load hindex).andThen <| hbound.andThen <| tidy_compare.andThen <|
    tidy_fail.whenNonzero

theorem tidy_argumentIndex (hargs : ∀ e ∈ c.args, Granted G locals e) :
    Tidy G m (emitArgumentIndex E ctx locals c checked) := by
  unfold emitArgumentIndex
  split
  case h_1 target position h =>
    have hposition := hargs position (by simp [h])
    refine .check fun _ => .ite (fun _ => ?_) fun _ => ?_
    · refine (respects_spillIndex hE hroom hposition).bind fun r m₁ _ hr => ?_
      exact (tidy_checkRange hr.1 (tidy_emitWith rfl rfl)).andThen <| tidy_load hr.1
    · exact tidy_indexWidth.bind fun _ _ hm₁ _ => hE.exprAt (hroom.later hm₁) hposition
  · exact .throw

omit hE hroom in
theorem tidy_slotAddress {scale offset : Int64} (hbase : base < m) (hindex : index < m) :
    Tidy G m (emitAddress base index scale offset) :=
  (tidy_load hbase).andThen <| (tidy_load hindex).andThen <| tidy_pushInt.andThen <| tidy_arithmetic.andThen <|
    tidy_pushInt.andThen <| tidy_arithmetic.andThen <| tidy_pushInt.andThen <| tidy_arithmetic.andThen tidy_arithmetic

theorem tidy_element (htarget : Granted G locals target) (hposition : Granted G locals position) :
    Tidy G m (emitElement E ctx locals builtin type target position checked) := by
  refine respects_newSlot.bind fun base m₁ hm₁ hbase => ?_
  refine (tidy_collection hE (hroom.later hm₁) htarget).bind fun _ m₂ hm₂ _ => ?_
  refine (tidy_store (by omega) (hroom.fresh base hbase.1)).andThen ?_
  refine (respects_spillIndex hE (hroom.later (by omega)) hposition).bind fun ⟨index, w⟩ m₃ hm₃ hindex => ?_
  have hrest : Tidy G m₃ (do
      emitAddress base index 1 (Int64.ofNat (headerSlots type))
      emit .loadIndirect) :=
    (tidy_slotAddress (by omega) hindex.1).andThen <| tidy_emitWith rfl rfl
  refine .ite (fun _ => ?_) fun _ => hrest
  have hcount : Tidy G m₃ (do load base; emit .loadIndirect; coerce .int32 w.kind) :=
    (tidy_load (by omega)).andThen <| (tidy_emitWith rfl rfl).andThen tidy_coerce
  exact (tidy_checkRange hindex.1 hcount).andThen hrest

/-! ### Maps -/

omit hE hroom in
/-- What one run lays out is the same in every account of it. -/
theorem Respects.piece {α : Type} {x : Lowering α} {Q : α → Nat → Prop} (h : Respects G m x Q) {s t : State} {a : α}
    (hs : m ≤ s.nextSlot) (hx : x s = .ok (a, t)) {p : Piece} (hp : Extends s p t) :
    ∀ i ∈ p.ops, i.Within G t.nextSlot := by
  obtain ⟨q, hq, hops, -⟩ := h s a t hs hx
  have hcode : p.code 0 s.code.size = q.code 0 s.code.size := List.append_cancel_left (hp.code.symm.trans hq.code)
  intro i hi
  rw [Piece.mem_ops 0 s.code.size, hcode, ← Piece.mem_ops] at hi
  exact hops i hi

omit hE hroom in
/-- Routine parts have no exits, so that a loop of them can be left from within. -/
theorem tidy_loopUntil {cond test next after : Lowering Unit}
    (hcond : Routine (fun _ => True) True 0 1 cond ∧ Tidy G m cond)
    (htest : Routine (fun _ => True) True 0 1 test ∧ Tidy G m test)
    (hnext : Routine (fun _ => True) True 0 0 next ∧ Tidy G m next)
    (hafter : Routine (fun _ => True) True 0 0 after ∧ Tidy G m after) : Tidy G m (loopUntil cond test next after) := by
  intro s ⟨⟩ t hs h
  obtain ⟨t₁, s₂, t₂, s₃, t₃, s₄, t₄, hrun₁, hrun₂, hrun₃, hrun₄, h₁, h₂, h₃, h₄, hext⟩ := loopUntil_inv h
  obtain ⟨pc, hpc, hpcp⟩ := hcond.1.plain _ _ _ _ hrun₁ List.prefix_rfl
  obtain ⟨pt, hpt, hptp⟩ := htest.1.plain _ _ _ _ hrun₂ List.prefix_rfl
  obtain ⟨pn, hpn, hpnp⟩ := hnext.1.plain _ _ _ _ hrun₃ List.prefix_rfl
  obtain ⟨pa, hpa, hpap⟩ := hafter.1.plain _ _ _ _ hrun₄ List.prefix_rfl
  have hslots₁ := hpc.slots
  have hslots₂ := hpt.slots
  have hslots₃ := hpn.slots
  have hslots₄ := hpa.slots
  rw [h₁.slots] at hslots₂
  rw [h₂.slots] at hslots₃
  rw [h₃.slots] at hslots₄
  refine ⟨_, hext pc pt pn pa hpc hpt hpn hpa fun k => ?_, fun i hi => ?_, trivial⟩
  · exact ⟨hpcp.exits_eq_nil k, hptp.exits_eq_nil k, hpnp.exits_eq_nil k, hpap.exits_eq_nil k⟩
  · simp only [Piece.loopUntil, Piece.ops, List.nil_append, List.mem_append, or_assoc] at hi
    rw [h₄.slots]
    rcases hi with hi | hi | hi | hi
    · exact (hcond.2.piece hs hrun₁ hpc i hi).mono (by omega)
    · exact (htest.2.piece (by rw [h₁.slots]; omega) hrun₂ hpt i hi).mono (by omega)
    · exact (hnext.2.piece (by rw [h₂.slots]; omega) hrun₃ hpn i hi).mono (by omega)
    · exact hafter.2.piece (by rw [h₃.slots]; omega) hrun₄ hpa i hi

omit hE hroom in
theorem tidy_search {key count entry : Nat} (hbase : base < m) (hkey : key < m) (hcount : count < m)
    (hentry : entry < m ∧ G entry) : Tidy G m (emitSearch w base key count entry checked) := by
  rw [emitSearch_eq]
  refine tidy_loopUntil ⟨routine_entriesLeft, ?_⟩ ⟨routine_keyTest, ?_⟩ ⟨routine_nextEntry, ?_⟩ ⟨?_, ?_⟩
  · exact (tidy_load hentry.1).andThen <| (tidy_load hcount).andThen <| tidy_emitWith rfl rfl
  · exact (tidy_slotAddress hbase hentry.1).andThen <| (tidy_emitWith rfl rfl).andThen <|
      (tidy_load hkey).andThen tidy_compare
  · exact (tidy_load hentry.1).andThen <| (tidy_emitWith rfl rfl).andThen <| (tidy_emitWith rfl rfl).andThen <|
      tidy_store hentry.1 hentry.2
  · exact .ite (fun _ => .fail (by decide)) fun _ => .pure ()
  · exact .ite (fun _ => tidy_fail) fun _ => .pure fun _ _ => trivial

theorem tidy_lookup (htarget : Granted G locals target)
    (hposition : Granted G locals position) : Tidy G m (emitLookup E ctx locals type target position checked) := by
  have hwidth : Tidy G m (lookupWidth ctx locals type position) :=
    .liftBind fun _ _ => tidy_operand.bind fun _ _ _ _ => .check fun _ => .pure fun _ _ => trivial
  have hG := hroom.fresh
  refine hwidth.bind fun w m₀ hm₀ _ => respects_newSlot.bind fun base m₁ hm₁ hbase => ?_
  refine (tidy_collection hE (hroom.later (by omega)) htarget).bind fun _ m₂ hm₂ _ => ?_
  refine (tidy_store (by omega) (hG base (by omega))).andThen <| respects_newSlot.bind fun key m₃ hm₃ hkey => ?_
  refine (hE.exprAt (hroom.later (by omega)) hposition).andThen <| (tidy_store hkey.2 (hG key (by omega))).andThen <|
    respects_newSlot.bind fun count m₄ hm₄ hcount => ?_
  refine (tidy_load (by omega)).andThen <| (tidy_emitWith rfl rfl).andThen <|
    (tidy_store hcount.2 (hG count (by omega))).andThen <| respects_newSlot.bind fun entry m₅ hm₅ hentry => ?_
  have hGentry := hG entry (by omega)
  refine (tidy_emitWith rfl rfl).andThen <| (tidy_store hentry.2 hGentry).andThen ?_
  exact (tidy_search (by omega) (by omega) (by omega) ⟨hentry.2, hGentry⟩).andThen <|
    (tidy_slotAddress (by omega) hentry.2).andThen <| tidy_emitWith rfl rfl

/-! ### Strings, `count` and `at` -/

omit hE hroom in
theorem tidy_knownText : Tidy G m (knownText? locals builtin e) := by
  unfold knownText?
  split
  · exact tidy_internText.bind fun _ _ _ _ => .pure fun _ _ => trivial
  · split
    · exact .pure fun _ _ => trivial
    · refine .ite (fun _ => ?_) fun _ => .pure fun _ _ => trivial
      split
      · exact .pure fun _ _ => trivial
      · exact tidy_get.bind fun _ _ _ _ => .pure fun _ _ => trivial
      · exact .throw
  · exact .pure fun _ _ => trivial

theorem tidy_byte {length : Nat} (hposition : Granted G locals position) :
    Tidy G m (emitByte E ctx locals builtin index length position checked) := by
  refine (respects_spillIndex hE hroom hposition).bind fun ⟨slot, w⟩ m₁ _ hslot => ?_
  have hrest : Tidy G m₁ (do
      load slot
      emitWith .loadStringByte (UInt64.ofNat index)) :=
    (tidy_load hslot.1).andThen <| tidy_emitWith rfl rfl
  exact .ite (fun _ => (tidy_checkRange hslot.1 tidy_pushInt).andThen hrest) fun _ => hrest

theorem tidy_count (htarget : Granted G locals target) : Tidy G m (emitCount E ctx locals builtin target) := by
  refine .ite (fun _ => (tidy_emitWith rfl rfl).andThen <| .pure fun _ _ => trivial) fun _ => ?_
  refine .liftBind fun type? _ => ?_
  cases type? with
  | some type =>
    exact (tidy_collection hE hroom htarget).bind fun _ _ _ _ => (tidy_emitWith rfl rfl).andThen <|
      .pure fun _ _ => trivial
  | none =>
    refine tidy_knownText.bind fun known _ _ _ => ?_
    cases known with
    | none => exact .throw
    | some text => exact (tidy_emitWith rfl rfl).andThen <| .pure fun _ _ => trivial

theorem tidy_index (hc : c.args = [target, position])
    (hargs : ∀ e ∈ c.args, Granted G locals e) : Tidy G m (emitIndex E ctx locals c target position checked) := by
  have htarget := hargs target (by simp [hc])
  have hposition := hargs position (by simp [hc])
  refine .ite (fun _ => (tidy_argumentIndex hE hroom hargs).andThen <| .pure fun _ _ => trivial) fun _ =>
    .liftBind fun type? _ => ?_
  cases type? with
  | some type =>
    refine .ite (fun _ => ?_) fun _ => ?_
    · exact (tidy_lookup hE hroom htarget hposition).andThen <| .pure fun _ _ => trivial
    · exact (tidy_element hE hroom htarget hposition).andThen <| .pure fun _ _ => trivial
  | none =>
    refine tidy_knownText.bind fun known _ hm _ => ?_
    cases known with
    | none => exact .throw
    | some text => exact (tidy_byte hE (hroom.later hm) hposition).andThen <| .pure fun _ _ => trivial

end
end Lower
end FlatCode
