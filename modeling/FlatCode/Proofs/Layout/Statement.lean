import FlatCode.Lower.Statement
import FlatCode.Proofs.Layout.Expression

/-! Statements leave nothing on the stack, and those that are sure to leave have no way to their end. Main result:
    lowering to any depth lays out such code (`Emitter.good_atDepth`). -/

namespace FlatCode.Lower
open Stateful

variable {b : Builtin} {c : Call} {cond count e : Expr} {k : Kind} {body : List Expr} {ts : List Transform}
  {l : Local} {counter : Nat} {value : Option Expr} {below slot : Option Nat} {mode : PrintMode} {P R : Prop}
  {returns : ReturnInfo} {s t : State} {builtin x : String} {fault : TypeError} {w : Width}

section
variable {u : Realm} {E : Emitter} {ctx : Context} {locals : Locals}

theorem exit_inv {waiting : Nat} (h : (do
    let position ← openJump .jump
    modify fun s => { s with exits := { position, waiting } :: s.exits } : Lowering Unit) s = .ok ((), t)) :
    Extends s (.exit waiting) t := by
  obtain ⟨position, v, hopen, hnote⟩ := bind_eq_ok.mp h
  obtain ⟨rfl, hcode, hsame⟩ := openJump_inv hopen
  cases hnote
  exact ⟨⟨hcode, hsame.expansions, hsame.strings ▸ List.prefix_rfl, Nat.le_of_eq hsame.slots.symm, hsame.strings ▸ id⟩,
    congrArg _ hsame.exits⟩

/-- The exit of a `return` stands where the operands of the body wait. -/
theorem emits_exit (h : ctx.target = .expansion returns slot) :
    Emits u ctx.below P R 0 0 (do
      let position ← openJump .jump
      modify fun s => { s with exits := { position, waiting := ctx.waiting } :: s.exits }) fun _ => True := by
  intro s ⟨⟩ t hrun
  refine ⟨.exit ctx.waiting, exit_inv hrun, fun _ _ => ⟨?_, fun _ => Piece.departs_exit _, trivial⟩⟩
  rw [Context.below, h]
  exact .exit

theorem quiet_ret (w : Width) : (Opcode.ret w).Quiet 1 0 := by
  cases w <;> decide

theorem isReturn_ret (w : Width) : (Opcode.ret w).isReturn = true := by
  cases w <;> rfl

section
variable (hE : E.Good u) (hctx : u.Admits ctx)
include hE hctx

theorem emits_returnToEnd (h : ctx.target = .expansion returns slot) :
    Emits u ctx.below (u.Texts locals) R 0 0 (returnToEnd E ctx locals returns slot value) fun _ => True := by
  unfold returnToEnd
  split
  · refine (hE.expr hctx).bind fun _ => .ite (fun _ => ?_) fun _ => ?_
    · exact emits_coerce.andThen <| emits_store.andThen <| emits_exit h
    · exact emits_store.andThen <| emits_exit h
  · exact emits_exit h

theorem emits_returnFromRun :
    Emits u ctx.below (u.Texts locals) R 0 0 (returnFromRun E ctx locals returns value) fun _ => True := by
  unfold returnFromRun
  split
  · exact .quiet (a := 0) (b := 0) (by decide) (fun _ => rfl) 0
  · refine .check ?_
    refine (hE.expr hctx).bind fun _ => .ite (fun _ => ?_) fun _ => ?_
    · exact .quiet (a := 1) (b := 0) (by decide) (fun _ => rfl) 0
    · exact emits_coerce.andThen <| .liftBind fun w _ => .quiet (quiet_ret w) (fun _ => isReturn_ret w) 0

theorem emits_return : Emits u ctx.below (u.Texts locals) R 0 0 (lowerReturn E ctx locals value) fun _ => True := by
  unfold lowerReturn
  split
  · exact emits_returnFromRun hE hctx
  · exact emits_returnToEnd hE hctx (by assumption)

theorem emits_ifBranch : Emits u ctx.below (u.Texts locals) (Returns.surely true e = true) 0 0
    (do E.block ctx locals (← Returns.branchBody e)) fun _ => True :=
  .liftBind fun _ hbody => (hE.block hctx).departing fun h => Returns.listSurely_of_branchBody h hbody

theorem emits_if {yes no : Expr} :
    Emits u ctx.below (u.Texts locals) (Returns.surely true yes = true ∧ Returns.surely true no = true) 0 0
      (lowerIf E ctx locals cond yes no) fun _ => True :=
  (hE.condition hctx).andThen <| Emits.departFirst
    (.branch ((emits_ifBranch hE hctx).departing And.left) ((emits_ifBranch hE hctx).departing And.right))
    fun _ => .pure fun _ => trivial

theorem emits_spillCount {bools : Bool} :
    Moves u ctx.below (u.Texts locals) 0 0 (spillCount E ctx locals bools fault count) :=
  emits_operand.bind fun _ => .check <| .liftBind fun _ _ => emits_newSlot.bind fun _ =>
    (hE.exprAt hctx).andThen <| emits_store.andThen <| .pure fun _ => trivial

/-- The body of a loop that counts down. -/
theorem emits_pass :
    Emits u ctx.below (u.Texts locals) (Returns.listSurely body = true) 0 0 (do
      E.block ctx locals body
      load counter
      pushInt w 1
      arithmetic .minus w
      store counter) fun _ => True :=
  (hE.block hctx).departFirst fun _ => emits_load.andThen <| emits_pushInt.andThen <| emits_arithmetic.andThen
    emits_store

theorem emits_countDown : Moves u ctx.below (u.Texts locals) 0 0 (countDown E ctx locals counter w body) :=
  .loop (routine_compareSlot routine_pushInt).emits fun _ =>
    ((emits_pass hE hctx).departing nofun).assuming And.left

theorem emits_countedLoop : Moves u ctx.below (u.Texts locals) 0 0 (lowerLoop E ctx locals count body) :=
  (emits_spillCount hE hctx).bind fun _ => (routine_failIfNegative (by decide)).emits.andThen <|
    emits_countDown hE hctx

theorem emits_while : Moves u ctx.below (u.Texts locals) 0 0 (lowerWhile E ctx locals cond body) :=
  .loop (hE.condition hctx) fun _ => ((hE.block hctx).departing nofun).assuming And.left

theorem emits_forCondition : Emits u ctx.below (u.Texts locals) False 0 1 (forCondition E ctx locals cond) u.Texts := by
  refine .ite (fun _ => ((hE.statement hctx).departing nofun).bindWith fun inner => ?_) fun _ => ?_
  · split
    · exact .throw
    · exact .ite (fun _ => emits_load.andThen <| .pure And.right) fun _ => .throw
  · exact (hE.condition hctx).andThen <| .pure id

theorem emits_for {init step : Expr} :
    Moves u ctx.below (u.Texts locals) 0 0 (lowerFor E ctx locals init cond step body) := by
  refine ((hE.statement hctx).departing nofun).bindWith fun inner => ?_
  have hblock {locals : Locals} {body : List Expr} :
      Moves u ctx.below (u.Texts locals) 0 0 (E.block ctx locals body) := (hE.block hctx).departing nofun
  exact .loop ((emits_forCondition hE hctx).assuming And.right) fun _ => (hblock.andThen hblock).assuming And.right

end

theorem Extends.after_nop {v : State} {p : Piece} (h : Extends s .nop t) (h' : Extends t p v) : Extends s p v := by
  have hcode : t.code = s.code := Array.toList_inj.mp (h.code.trans (List.append_nil _))
  refine ⟨⟨hcode ▸ h'.code, ?_, h.strings.trans h'.strings, Nat.le_trans h.slots h'.slots,
    h'.distinct ∘ h.distinct⟩, ?_⟩
  · rw [h'.expansions, h.expansions, hcode]
    rfl
  · rw [h'.exits, h.exits, hcode]
    rfl

theorem coerce_width (h : k.width? = some w) : coerce k w.kind = pure () := by
  unfold coerce
  rw [h]
  cases w <;> rfl

theorem width?_of_widthOf (h : widthOf k = .ok w) : k.width? = some w := by
  unfold widthOf at h
  split at h
  · cases h
    assumption
  · exact nomatch h

/-- The number of passes that a literal gives is pushed and stored. -/
theorem spillCount_literal {l : Literal}
    (hE : E.Good u) (hctx : u.Admits ctx) (hpass : Returns.isPass (.literal ts l) = true)
    (h : spillCount E ctx locals true fault (.literal ts l) s = .ok ((counter, w), t)) :
    ∃ p, Extends s p t ∧ p.Leads (Piece.Counting w counter) ∧ ∀ below, p.Laid u below 0 0 := by
  obtain ⟨operand, s₁, hoperand, h₁⟩ := bind_eq_ok.mp h
  obtain ⟨hkind, h₂⟩ := check_eq_ok.mp h₁
  obtain ⟨w', _, hwidth, h₃⟩ := bind_eq_ok.mp h₂
  obtain ⟨hwidth, rfl⟩ := lift_eq_ok.mp hwidth
  obtain ⟨counter', s₂, hslot, h₄⟩ := bind_eq_ok.mp h₃
  obtain ⟨⟨⟩, s₃, hexpr, h₅⟩ := bind_eq_ok.mp h₄
  obtain ⟨⟨⟩, s₄, hstore, h₆⟩ := bind_eq_ok.mp h₅
  obtain ⟨heq, rfl⟩ := pure_eq_ok.mp h₆
  cases heq
  -- The kind of a literal is inferred without looking further.
  obtain ⟨cache, hrun, rfl⟩ := infer_inv hoperand
  obtain ⟨depth, hinferrer⟩ := hctx.inferrer
  rw [hinferrer] at hrun
  obtain rfl : operand = .value (Kind.ofLiteral l) := by
    cases depth with
    | zero => exact nomatch hrun
    | succ depth =>
      cases hrun
      rfl
  have hw : (Kind.ofLiteral l).width? = some w := width?_of_widthOf hwidth
  obtain ⟨o, s₅, hliteral, hcoerce⟩ := bind_eq_ok.mp hexpr
  obtain ⟨i, hpush, rfl, hemit⟩ := hE.literal hliteral
  change coerce (Kind.ofLiteral l) w.kind s₅ = _ at hcoerce
  rw [coerce_width hw] at hcoerce
  obtain ⟨-, rfl⟩ := pure_eq_ok.mp hcoerce
  have hquiet := quiet_literalPush hpush
  have hi := (emitWith_inv hemit (Opcode.isJump_of_isQuiet hquiet.1)).1
  have hst := (emitWith_inv hstore rfl).1
  have hnop : Extends s .nop s₂ := extends_cache.mp (newSlots_inv (n := 1) hslot).1
  have hkind : (Kind.ofLiteral l).isInteger = true ∨ Kind.ofLiteral l = .bool := by
    simpa [Operand.kind, Operand.isPointer, Decidable.or_iff_not_imp_left] using hkind
  obtain ⟨f, hop, hcounts⟩ := Piece.counts_of_literal hpass hpush hw hkind
  refine ⟨_, hnop.after_nop (hi.seq hst), Piece.leads_counting hop hcounts, fun below => ?_⟩
  exact .plain (.seq (.op hquiet 0) (.op (a := 1) (b := 0) ⟨rfl, rfl, rfl⟩ 0))

theorem passesLeft_inv
    (h : compareSlot w counter (if w = .u64 then .notEqual else .greater) (pushInt w 0) s = .ok ((), t)) :
    Extends s (.passesLeft w counter) t := by
  obtain ⟨⟨⟩, s₁, hload, h₁⟩ := bind_eq_ok.mp h
  obtain ⟨⟨⟩, s₂, hpush, hcompare⟩ := bind_eq_ok.mp h₁
  exact (emitWith_inv hload rfl).1.seq <| (emitWith_inv hpush _).1.seq (emitWith_inv hcompare _).1

theorem plain_passesLeft {S : List String} : (Piece.passesLeft w counter).Plain S 0 1 := by
  refine .seq (.op (a := 0) (b := 1) ⟨rfl, rfl, rfl⟩ 0) (.seq (.op (a := 0) (b := 1) (quiet_push w) 1) ?_)
  exact .op (a := 2) (b := 1) (by cases w <;> exact ⟨rfl, rfl, rfl⟩) 0

/-- A `repeat` departs if its literal count makes it run and its block departs. -/
theorem emits_repeat (hE : E.Good u) (hctx : u.Admits ctx) :
    Emits u ctx.below (u.Texts locals) (Returns.isPass count = true ∧ Returns.listSurely body = true) 0 0
      (lowerRepeat E ctx locals count body) fun _ => True := by
  by_cases hpass : Returns.isPass count = true
  · obtain ⟨ts, l, rfl⟩ : ∃ ts l, count = .literal ts l := by
      cases count with
      | literal ts l => exact ⟨ts, l, rfl⟩
      | name | call => cases hpass
    have hcount : isNoCount (.literal ts l) = false := by simpa [Returns.isPass] using hpass
    unfold lowerRepeat
    rw [hcount]
    rintro s ⟨⟩ t h
    obtain ⟨⟨counter, w⟩, s₁, hspill, hdown⟩ := bind_eq_ok.mp h
    obtain ⟨p, hp, hleads, hpl⟩ := spillCount_literal hE hctx hpass hspill
    obtain ⟨⟨⟩, t₁, s₂, t₂, hcond, hbody, -, -, ht, -, hext⟩ := loop_inv hdown
    obtain ⟨q, hq, hql⟩ := emits_pass hE hctx s₂ () t₂ hbody
    refine ⟨_, hp.seq (hext _ q (passesLeft_inv hcond) hq), fun hl hS => ?_⟩
    obtain ⟨hql, hdep, -⟩ := hql hl (ht.strings ▸ hS)
    refine ⟨.seq (hpl _) (.loop (.plain plain_passesLeft) hql), fun hR => .seq hleads ?_, trivial⟩
    exact .loop (Piece.affirms_passesLeft w counter) (hdep hR.2)
  · refine Emits.departing (R := False) ?_ fun hR => hpass hR.1
    exact .ite (fun _ => .pure fun _ => trivial) fun _ => (emits_spillCount hE hctx).bind fun _ => emits_countDown hE hctx

theorem emits_printString {i : Nat} (hmode : u.allows mode.effect)
    (hi : P → i < u.strings.length) : Moves u below P 0 0 (emitWith .printString (mode.ofString i)) :=
  .print rfl ((ofImm_ofString mode i).symm ▸ hmode) fun hP _ =>
    toNat_stringIndex_ofString mode i ▸ Nat.lt_of_le_of_lt (Nat.mod_le ..) (hi hP)

theorem emits_printTop {op : Opcode} (hmode : u.allows mode.effect)
    (hop : op.isJump = false ∧ op ≠ .printString ∧ op.operation.takes = 1 ∧ op.operation.leaves = 0) :
    Moves u below P 1 0 (emitWith op mode.flags) := by
  obtain ⟨hplain, hstring, htakes, hleaves⟩ := hop
  have hprint : Moves u below P op.operation.takes op.operation.leaves (emitWith op mode.flags) :=
    .print hplain ((ofImm_flags mode).symm ▸ hmode) fun _ h => absurd h hstring
  rwa [htakes, hleaves] at hprint

theorem emits_argumentPrint {checked : Bool}
    (hmode : u.allows mode.effect) : Moves u below P 1 0 (emitWith (argumentPrint checked) mode.flags) :=
  emits_printTop hmode (by cases checked <;> decide)

theorem emits_printText (hmode : u.allows mode.effect)
    (hl : P → l.text.Below u.strings.length) : Moves u ctx.below P 0 0 (printText mode x l) := by
  unfold printText
  split
  · exact .throw
  case h_2 index htext => exact emits_printString hmode fun h => hl h index htext
  · exact emits_load.andThen (emits_argumentPrint hmode)

theorem lookup_of_textLocal (h : textLocal? locals e = some (x, l)) : locals.lookup x = some l := by
  unfold textLocal? at h
  split at h
  · split at h
    · split at h
      · cases h
        assumption
      · exact nomatch h
    · exact nomatch h
  · exact nomatch h

section
variable (hE : E.Good u) (hctx : u.Admits ctx)
include hE hctx

theorem emits_printValue (hmode : u.allows mode.effect) :
    Moves u ctx.below (u.Texts locals) 0 0 (printValue E ctx locals builtin mode e) := by
  refine (hE.expr hctx).bind fun operand => .liftBind fun op hop => emits_printTop hmode ?_
  unfold wordPrint at hop
  split at hop <;> cases hop <;> decide

theorem emits_print (hmode : u.allows mode.effect) :
    Moves u ctx.below (u.Texts locals) 0 0 (lowerPrint E ctx locals builtin mode e) := by
  unfold lowerPrint
  split
  · exact emits_internText.bindWith fun _ => emits_printString hmode And.right
  · refine .ite (fun _ => ?_) fun _ => emits_printValue hE hctx hmode
    exact (emits_argumentIndex hE hctx).andThen (emits_argumentPrint hmode)
  · split
    case h_1 htext => exact emits_printText hmode fun h => h.lookup (lookup_of_textLocal htext)
    case h_2 => exact emits_printValue hE hctx hmode

omit hE hctx in
theorem emits_dropValue {x : Lowering Operand} (h : Moves u ctx.below P 0 1 x) :
    Moves u ctx.below P 0 0 (dropValue x) :=
  h.bind fun _ => .quiet (a := 1) (b := 0) (by decide) nofun 0

omit hE in
theorem allows_print {newline stderr : Bool} (hb : c.builtin? = some b) (hcls : b.cls = .print newline stderr)
    (hrequire : ctx.effects.require c.name = .ok ()) : u.allows (PrintMode.mk newline stderr).effect := by
  refine hctx.effects _ ?_
  have hlookup := CallOf.lookup?_of_builtin? hb
  unfold EffectSet.require at hrequire
  unfold Builtin.lookup? at hlookup
  split at hlookup <;> cases hlookup <;> cases hcls
  all_goals
    rename_i hname
    rw [hname] at hrequire
    simp only [Effect.requiredBy?] at hrequire
    split at hrequire
    · assumption
    · exact nomatch hrequire

omit hE hctx in
theorem listSurely_of_blockOf (hbody : blockOf c = .ok body)
    (h : Returns.bodySurely c.body = true) : Returns.listSurely body = true := by
  rwa [blockOf_inv hbody] at h

theorem emits_lowerBuiltin (hb : c.builtin? = some b) (hrequire : ctx.effects.require c.name = .ok ()) :
    Emits u ctx.below (u.Texts locals) (Returns.surely false (.call ts c) = true) 0 0
      (lowerBuiltin E ctx locals (.call ts c) c b.cls) fun _ => True := by
  have hleaves (h : Returns.surely false (.call ts c) = true) : Returns.LeavesBy c b.cls := by
    obtain ⟨-, b', hb', h⟩ := Returns.surely_call h
    cases hb.symm.trans hb'
    exact h
  have hstays {x : Lowering Unit} (hx : Moves u ctx.below (u.Texts locals) 0 0 x) (h : ¬Returns.LeavesBy c b.cls) :
      Emits u ctx.below (u.Texts locals) (Returns.surely false (.call ts c) = true) 0 0 x fun _ => True :=
    hx.departing fun hsurely => h (hleaves hsurely)
  unfold lowerBuiltin
  split
  · exact emits_return hE hctx
  case h_2 cond yes no hcls hargs =>
    refine (emits_if hE hctx).departing fun h => ?_
    rw [hcls] at hleaves
    obtain ⟨_, _, _, hargs', hyes, hno⟩ := hleaves h
    cases hargs.symm.trans hargs'
    exact ⟨hyes, hno⟩
  case h_3 count hcls hargs =>
    refine .liftBind fun body hbody => (emits_repeat hE hctx).departing fun h => ?_
    rw [hcls] at hleaves
    obtain ⟨_, hargs', hpass, h⟩ := hleaves h
    cases hargs.symm.trans hargs'
    exact ⟨hpass, listSurely_of_blockOf hbody h⟩
  case h_4 hcls _ => exact hstays (.liftBind fun _ _ => emits_countedLoop hE hctx) (hcls ▸ id)
  case h_5 hcls _ => exact hstays (.liftBind fun _ _ => emits_while hE hctx) (hcls ▸ id)
  case h_6 hcls _ => exact hstays (.liftBind fun _ _ => emits_for hE hctx) (hcls ▸ id)
  case h_7 hcls =>
    refine .liftBind fun body hbody => (hE.block hctx).departing fun h => listSurely_of_blockOf hbody ?_
    rw [hcls] at hleaves
    exact hleaves h
  case h_8 hcls _ => exact hstays (emits_print hE hctx (allows_print hctx hb hcls hrequire)) (hcls ▸ id)
  case h_9 hcls _ => exact hstays (emits_dropValue (emits_assign hE hctx)) (hcls ▸ id)
  case h_10 hcls _ => exact hstays (emits_dropValue (emits_step hE hctx)) (hcls ▸ id)
  case h_11 hret hblock hif hrepeat _ _ _ _ _ _ =>
    refine hstays (emits_dropValue (emits_expr hE hctx)) fun h => ?_
    cases hcls : b.cls <;> rw [hcls] at h
    case ret => exact hret hcls
    case ifElse =>
      obtain ⟨cond, yes, no, hargs, -⟩ := h
      exact hif cond yes no hcls hargs
    case block => exact hblock hcls
    case repeatLoop =>
      obtain ⟨count, hargs, -⟩ := h
      exact hrepeat count hcls hargs
    all_goals exact h

theorem emits_statement {locals : Locals} :
    Emits u ctx.below (u.Texts locals) (Returns.surely false e = true) 0 0 (lowerStatement E ctx locals e) u.Texts := by
  refine .liftBind fun ctx' hinside => ?_
  obtain ⟨hctx', hbelow⟩ := hctx.inside hinside
  rw [← hbelow]
  split
  case h_1 ts c =>
    refine .ite (fun hbinding => ?_) fun _ => ?_
    · refine Emits.departing (R := False) ?_ fun h => ?_
      · exact (emits_bindLocal hE hctx').bindWith fun _ => .pure fun h => h.1.cons h.2
      · exact nomatch (Returns.surely_call h).1.symm.trans hbinding
    · split
      case h_1 b hb =>
        refine .check ?_
        refine .check ?_
        refine .liftBind fun _ _ => .liftBind fun _ hrequire => ?_
        exact (emits_lowerBuiltin hE hctx' hb hrequire).departFirst fun _ => .pure And.left
      case h_2 hb =>
        refine Emits.departing (R := False) ?_ fun h => ?_
        · refine .inferBind fun callee _ _ hcallee => Emits.bind (Q := fun _ => True) ?_ fun _ => .pure id
          exact emits_expand hE hctx' (hctx'.definitions ▸ mem_of_callee hcallee)
        · obtain ⟨-, b, hb', -⟩ := Returns.surely_call h
          exact nomatch hb.symm.trans hb'
  case h_2 hcall =>
    refine Emits.departing (R := False) ?_ fun h => ?_
    · exact (emits_dropValue (emits_expr hE hctx')).andThen <| .pure id
    · cases e with
      | call ts c => exact hcall ts c rfl
      | literal | name => exact nomatch h

end
end

theorem Emitter.good_atDepth (u : Realm) (depth : Nat) : (atDepth depth).Good u := by
  induction depth with
  | zero => exact ⟨fun _ => .throw, fun _ => .throw, fun h => absurd h throw_ne_ok⟩
  | succ depth ih =>
    refine ⟨fun hctx => emits_expr ih hctx, fun hctx => emits_statement ih hctx, ?_⟩
    intro ctx locals ts l s o t h
    change emitExpr (atDepth depth) ctx locals (.literal ts l) s = .ok (o, t) at h
    exact emitExpr_literal h

end FlatCode.Lower
