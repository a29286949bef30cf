import FlatCode.Lower.Expansion
import FlatCode.Proofs.Layout.Collection
import FlatCode.Proofs.Lookup

/-! Bindings and expansions leave nothing but the value of a call. The body of an expansion is a scope of its own,
    whose exits are those that are noted while it is lowered. -/

namespace FlatCode.Lower
open Stateful

/-! ### Bindings -/

variable {parameter : Bool} {c : Call} {effects : EffectSet} {e : Expr} {I : Inferrer}
  {params : List (Expr × Filling)} {xs : List Exit} {args body : List Expr} {l : Local} {locals : Locals} {d n : Nat}
  {init : Option Expr} {below slot : Option Nat} {P : Prop} {returns : ReturnInfo} {scope : Scope} {site : Site}
  {s t : State} {name : String}

theorem text_of_inferLocal {c c' : ReturnCache} (h : (inferLocal scope I site locals e init).run c = some (.ok l, c')) :
    l.text = .none := by
  obtain ⟨type?, c₁, -, h₁⟩ := run_bind_eq_ok.mp h
  split at h₁
  · obtain ⟨-, c₂, -, h₂⟩ := run_bind_eq_ok.mp h₁
    obtain ⟨rfl, -⟩ := run_pure_eq_ok.mp h₂
    rfl
  · split at h₁
    · exact absurd h₁ run_throw_ne_ok
    · split at h₁
      · obtain ⟨rfl, -⟩ := run_pure_eq_ok.mp h₁
        rfl
      · obtain ⟨type?, c₂, -, h₂⟩ := run_bind_eq_ok.mp h₁
        split at h₂
        · obtain ⟨rfl, -⟩ := run_pure_eq_ok.mp h₂
          rfl
        · obtain ⟨operand, c₃, -, h₃⟩ := run_bind_eq_ok.mp h₂
          split at h₃
          · exact absurd h₃ run_throw_ne_ok
          · exact absurd h₃ run_throw_ne_ok
          · obtain ⟨rfl, -⟩ := run_pure_eq_ok.mp h₃
            rfl

theorem TextSource.below_none {text : TextSource} (h : text = .none) : text.Below n :=
  fun _ hi => nomatch h.symm.trans hi

section
variable {u : Realm} {E : Emitter} {ctx : Context} {locals : Locals}

/-- The local of a declaration is inferred, or is that of a parameter of which nothing is known; no code is emitted. -/
theorem declaredLocal_inv (h : declaredLocal ctx site locals e init parameter s = .ok (l, t)) :
    Extends s .nop t ∧ ((∃ c c', (inferLocal ctx.scope ctx.inferrer site locals e init).run c = some (.ok l, c')) ∨
      l = { mutable := isMutable e.transforms, type := .scalar .int32 }) := by
  obtain ⟨type?, -, h⟩ := lift_bind_eq_ok.mp h
  have hinfer {s : State} (h : infer (inferLocal ctx.scope ctx.inferrer site locals e init) s = .ok (l, t)) :
      Extends s .nop t ∧ ∃ c c', (inferLocal ctx.scope ctx.inferrer site locals e init).run c = some (.ok l, c') := by
    obtain ⟨cache, hrun, rfl⟩ := infer_inv h
    exact ⟨extends_cache.mp (.nop { s with cache }), _, _, hrun⟩
  cases init with
  | none => exact (hinfer h).imp_right .inl
  | some init =>
    have hrest (collection : Bool) (h : (if (parameter && !type?.isSome && !collection) = true then do
          let operand ← infer (ctx.inferrer.operand site locals init)
          if (operand == .unknown) = true then
            pure { mutable := isMutable e.transforms, type := BindingType.scalar .int32 }
          else infer (inferLocal ctx.scope ctx.inferrer site locals e init)
        else infer (inferLocal ctx.scope ctx.inferrer site locals e init) : Lowering Local) s = .ok (l, t)) :
        Extends s .nop t ∧ ((∃ c c', (inferLocal ctx.scope ctx.inferrer site locals e init).run c = some (.ok l, c')) ∨
          l = { mutable := isMutable e.transforms, type := .scalar .int32 }) := by
      by_cases hunknown : (parameter && !type?.isSome && !collection) = true
      · rw [if_pos hunknown] at h
        obtain ⟨operand, _, hoperand, h⟩ := bind_eq_ok.mp h
        obtain ⟨cache, -, rfl⟩ := infer_inv hoperand
        by_cases hoperand : (operand == .unknown) = true
        · rw [if_pos hoperand] at h
          obtain ⟨rfl, rfl⟩ := pure_eq_ok.mp h
          exact ⟨extends_cache.mp (.nop { s with cache }), .inr rfl⟩
        · rw [if_neg hoperand] at h
          exact ⟨extends_cache.mp (hinfer h).1, .inl (hinfer h).2⟩
      · rw [if_neg hunknown] at h
        exact (hinfer h).imp_right .inl
    by_cases harguments : isArguments locals init = true
    · exact hrest true (by simpa [harguments] using h)
    · simp only [harguments] at h
      obtain ⟨type?', -, h⟩ := lift_bind_eq_ok.mp h
      exact hrest type?'.isSome h

theorem emits_declaredLocal :
    Emits u below P False d d (declaredLocal ctx site locals e init parameter) (·.text = .none) :=
  .of_nop fun s l t h => by
    obtain ⟨hnop, ⟨c, c', hrun⟩ | rfl⟩ := declaredLocal_inv h
    · exact ⟨hnop, fun _ _ => text_of_inferLocal hrun⟩
    · exact ⟨hnop, fun _ _ => rfl⟩

theorem below_bindArguments (h : bindArguments locals init = .ok l) (hl : TextsBelow n locals) : l.text.Below n := by
  obtain ⟨-, x, hlookup⟩ := bindArguments_inv h
  exact hl.lookup hlookup

theorem emits_pushI64 {imm : UInt64} : Moves u below P d (d + 1) (emitWith .pushI64 imm) :=
  .quiet (a := 0) (b := 1) (by decide) nofun d

section
variable (hE : E.Good u) (hctx : u.Admits ctx)
include hE hctx

theorem emits_bindCollection :
    Emits u ctx.below (u.Texts locals ∧ l.text = .none) False 0 0 (bindCollection E ctx locals name init l)
      (·.text.Below u.strings.length) := by
  unfold bindCollection
  cases init with
  | none => exact .throw
  | some init =>
    exact emits_newSlot.bind fun _ => ((emits_collection hE hctx).assuming And.left).bind fun _ => .check <|
      emits_store.andThen <| .pure fun h => TextSource.below_none h.2

theorem emits_text {init : Expr} :
    Emits u ctx.below (u.Texts locals) False 0 1 (emitText E ctx locals init) (·.Below u.strings.length) := by
  unfold emitText
  split
  · refine emits_internText.bindWith fun index => emits_pushI64.andThen <| .pure fun h i hi => ?_
    cases hi
    exact h.2
  · exact .throw
  · split
    · exact .throw
    case h_2 l hlookup =>
      refine .ite (fun _ => .throw) fun _ => ?_
      split
      · exact .throw
      case h_2 index htext =>
        exact emits_pushI64.andThen <| .pure fun h => htext ▸ h.lookup hlookup
      · exact emits_load.andThen <| .pure fun _ => nofun
  · refine .ite (fun _ => ?_) fun _ => .ite (fun _ => ?_) fun _ => .throw
    · exact (emits_argumentIndex hE hctx).andThen <| .pure fun _ => nofun
    · exact (emits_argumentIndex hE hctx).andThen <| .pure fun _ => nofun

theorem emits_bindText :
    Emits u ctx.below (u.Texts locals) False 0 0 (bindText E ctx locals name init l)
      (·.text.Below u.strings.length) := by
  refine emits_newSlot.bind fun _ => ?_
  cases init with
  | none => exact .throw
  | some init => exact (emits_text hE hctx).bindWith fun _ => emits_store.andThen <| .pure And.right

theorem emits_bindWord :
    Emits u ctx.below (u.Texts locals ∧ l.text = .none) False 0 0 (bindWord E ctx locals init l)
      (·.text.Below u.strings.length) := by
  refine emits_newSlot.bind fun slot => ?_
  have hrest : Emits u ctx.below (u.Texts locals ∧ l.text = .none) False 1 0 (do store slot; pure { l with slot })
      (·.text.Below u.strings.length) :=
    emits_store.andThen <| .pure fun h => TextSource.below_none h.2
  cases init with
  | none => exact emits_pushInt.andThen hrest
  | some init =>
    exact ((hE.expr hctx).assuming And.left).bind fun _ => .ite (fun _ => emits_coerce.andThen hrest) fun _ => hrest

theorem emits_bindLocal :
    Emits u ctx.below (u.Texts locals) False 0 0 (bindLocal E ctx site locals e init parameter)
      (·.2.text.Below u.strings.length) := by
  unfold bindLocal
  split
  · exact .throw
  · refine emits_declaredLocal.bindWith fun l => ?_
    refine .ite (fun _ => ?_) fun _ => .ite (fun _ => ?_) fun _ => .ite (fun _ => ?_) fun _ => ?_
    · exact .liftBind fun _ hbound => .pure fun h => below_bindArguments hbound h.1
    · exact (emits_bindCollection hE hctx).bindWith fun _ => .pure And.right
    · exact ((emits_bindText hE hctx).assuming And.left).bindWith fun _ => .pure And.right
    · exact (emits_bindWord hE hctx).bindWith fun _ => .pure And.right

theorem emits_bindParameters {caller : Locals} {callee : Definition} :
    Emits u ctx.below (u.Texts caller ∧ u.Texts locals) False 0 0
      (bindParameters E ctx caller callee args locals params) u.Texts := by
  induction params generalizing locals with
  | nil => exact .pure And.right
  | cons p rest ih =>
    obtain ⟨param, filling⟩ := p
    cases filling with
    | argument i =>
      refine ((emits_bindLocal hE hctx).assuming And.left).bindWith fun _ => ?_
      exact ih.assuming fun h => ⟨h.1.1, h.1.2.cons h.2⟩
    | default =>
      refine ((emits_bindLocal hE hctx).assuming And.right).bindWith fun _ => ?_
      exact ih.assuming fun h => ⟨h.1.1, h.1.2.cons h.2⟩

end
end

/-! ### Expansions -/

theorem emits_resultSlot {u : Realm} : Moves u below P d d (resultSlot returns) :=
  .ite (fun _ => .pure fun _ => trivial) fun _ => emits_newSlot.bind fun _ => emits_pushInt.andThen <|
    emits_store.andThen <| .pure fun _ => trivial

theorem isNone_of_resultSlot (h : resultSlot returns s = .ok (slot, t)) : slot.isNone = returns.isVoid := by
  unfold resultSlot at h
  split at h
  case isTrue hvoid =>
    obtain ⟨rfl, -⟩ := pure_eq_ok.mp h
    exact hvoid.symm
  case isFalse hvoid =>
    obtain ⟨x, s₁, -, h₁⟩ := bind_eq_ok.mp h
    obtain ⟨-, s₂, -, h₂⟩ := bind_eq_ok.mp h₁
    obtain ⟨-, s₃, -, h₃⟩ := bind_eq_ok.mp h₂
    obtain ⟨rfl, -⟩ := pure_eq_ok.mp h₃
    exact (Bool.eq_false_iff.mpr hvoid).symm

section
variable {u : Realm} {E : Emitter} {ctx : Context} {locals : Locals}

/-- The exits of a body are those that are noted in it, and they all lead to its end. -/
theorem emitBody_run (h : emitBody E ctx locals body s = .ok (xs, t)) :
    ∃ v, E.block ctx locals body { s with exits := [] } = .ok ((), v) ∧ t.strings = v.strings ∧
      t.nextSlot = v.nextSlot ∧ ∀ q, Extends { s with exits := [] } q v →
        Grows s (.scope q) t ∧ t.exits = s.exits ∧ xs = q.exits s.code.size := by
  obtain ⟨_, _, hget, h₁⟩ := bind_eq_ok.mp h
  cases hget
  obtain ⟨⟨⟩, _, hclear, h₂⟩ := bind_eq_ok.mp h₁
  cases hclear
  obtain ⟨⟨⟩, v, hblock, h₃⟩ := bind_eq_ok.mp h₂
  obtain ⟨_, _, hget', h₄⟩ := bind_eq_ok.mp h₃
  cases hget'
  obtain ⟨⟨⟩, w, hclose, h₅⟩ := bind_eq_ok.mp h₄
  obtain ⟨⟨⟩, _, hrestore, h₆⟩ := bind_eq_ok.mp h₅
  cases hrestore
  obtain ⟨rfl, rfl⟩ := pure_eq_ok.mp h₆
  obtain ⟨hcode, hsame⟩ := closeAll_inv hclose
  refine ⟨v, hblock, hsame.strings, hsame.slots, fun q hq => ?_⟩
  -- The exits of the callers are put aside, so that those noted at the end are the exits of the body.
  have hexits : v.exits = q.exits s.code.size := by rw [hq.exits, List.append_nil]
  have hgrows : Grows s q v := ⟨hq.code, hq.expansions, hq.strings, hq.slots, hq.distinct⟩
  have hscope : Grows s (.scope q) w := hgrows.scope (hexits ▸ hcode) hsame
  exact ⟨⟨hscope.code, hscope.expansions, hscope.strings, hscope.slots, hscope.distinct⟩, rfl, hexits⟩

theorem emitBody_inv (hE : E.Good u) (hctx : u.Admits ctx)
    (hbelow : ctx.below = some 0) (h : emitBody E ctx locals body s = .ok (xs, t)) :
    ∃ q, Grows s (.scope q) t ∧ t.exits = s.exits ∧ xs = q.exits s.code.size ∧
      (u.Texts locals → t.strings.toList <+: u.strings →
        q.Laid u (some 0) 0 0 ∧ (Returns.listSurely body = true → q.Departs)) := by
  obtain ⟨v, hblock, hstrings, -, hscope⟩ := emitBody_run h
  obtain ⟨q, hq, hlaid⟩ := hE.block hctx { s with exits := [] } () v hblock
  rw [hbelow] at hlaid
  obtain ⟨hgrows, hexits, hxs⟩ := hscope q hq
  refine ⟨q, hgrows, hexits, hxs, fun hl hS => ?_⟩
  obtain ⟨hlaid, hdep, -⟩ := hlaid hl (hstrings ▸ hS)
  exact ⟨hlaid, hdep⟩

/-- The effects in force in a definition are allowed. -/
theorem Realm.Admits.bodyContext {callee : Definition} (h : u.Admits ctx) (hcallee : callee ∈ u.definitions)
    (heffects : EffectSet.active callee.transforms ctx.defaults callee.path = .ok effects) :
    u.Admits (bodyContext ctx callee effects returns slot) := by
  refine ⟨h.definitions, h.inferrer, h.defaults, fun x hx => ?_⟩
  obtain ⟨explicit, hexplicit, h₁⟩ := except_bind_eq_ok.mp heffects
  cases h₁
  cases explicit with
  | none => exact h.defaults x hx
  | some s => exact u.declared callee hcallee s hexplicit x hx

/-- The expansion of a definition, and what follows it. -/
theorem emits_expansion {α : Type} {d' : Nat} {callee : Definition} {rest : Option Nat → Lowering α} {Q : α → Prop}
    (hE : E.Good u) (hctx : u.Admits ctx) (hcallee : callee ∈ u.definitions)
    (heffects : EffectSet.active callee.transforms ctx.defaults callee.path = .ok effects)
    (hrest : ∀ slot, slot.isNone = returns.isVoid → Emits u ctx.below (u.Texts locals) False 0 d' (rest slot) Q) :
    Emits u ctx.below (u.Texts locals) False 0 d' (do
      let start ← here
      let calleeLocals ← bindParameters E ctx locals callee args [] params
      let slot ← resultSlot returns
      let exits ← emitBody E (bodyContext ctx callee effects returns slot) calleeLocals callee.body
      noteExpansion callee.path start exits
      rest slot) Q := by
  intro s a t h
  obtain ⟨start, _, hhere, h₁⟩ := bind_eq_ok.mp h
  cases hhere
  obtain ⟨calleeLocals, s₁, hparams, h₂⟩ := bind_eq_ok.mp h₁
  obtain ⟨slot, s₂, hslot, h₃⟩ := bind_eq_ok.mp h₂
  obtain ⟨exits, s₃, hbody, h₄⟩ := bind_eq_ok.mp h₃
  obtain ⟨⟨⟩, s₄, hnote, h₅⟩ := bind_eq_ok.mp h₄
  cases hnote
  obtain ⟨pa, hpa, hpal⟩ := emits_bindParameters hE hctx s calleeLocals s₁ hparams
  obtain ⟨pr, hpr, hprl⟩ := emits_resultSlot s₁ slot s₂ hslot
  obtain ⟨q, hq, hqe, rfl, hql⟩ := emitBody_inv hE (hctx.bodyContext hcallee heffects) rfl hbody
  obtain ⟨pt, hpt, hptl⟩ := hrest slot (isNone_of_resultSlot hslot) _ a t h₅
  refine ⟨_, ((hpa.seq hpr).expansion hq hqe).seq hpt, fun hl hS => ?_⟩
  -- The table of strings only grows, so that what it is in the end bounds it in every part.
  have hS₃ : s₃.strings.toList <+: u.strings := hpt.strings.trans hS
  have hS₂ := hq.strings.trans hS₃
  obtain ⟨hpal, -, hlocals⟩ := hpal ⟨hl, .nil⟩ (hpr.strings.trans hS₂)
  obtain ⟨hprl, -, -⟩ := hprl trivial hS₂
  obtain ⟨hql, hdep⟩ := hql hlocals hS₃
  obtain ⟨hptl, -, ha⟩ := hptl hl hS
  exact ⟨.seq (.expansion hcallee (.seq hpal hprl) hql hdep) hptl, nofun, ha⟩

theorem emits_expand {callee : Definition} {valueNeeded : Bool} (hE : E.Good u) (hctx : u.Admits ctx)
    (hcallee : callee ∈ u.definitions) :
    Moves u ctx.below (u.Texts locals) 0 (if valueNeeded then 1 else 0) (expand E ctx locals c callee valueNeeded) := by
  unfold expand
  refine .check ?_
  refine .check ?_
  refine .liftBind fun params _ => .liftBind fun fillings _ => .ite (fun _ => ?_) fun _ => ?_
  · cases valueNeeded with
    | false => exact .pure fun _ => trivial
    | true => exact emits_pushI32.andThen <| .pure fun _ => trivial
  · refine emits_infer.bind fun returns => ?_
    by_cases hvoid : (valueNeeded && returns.isVoid) = true
    · rw [if_pos hvoid]
      exact .throw
    · rw [if_neg hvoid]
      refine .liftBind fun effects heffects => emits_expansion hE hctx hcallee heffects fun slot hslot => ?_
      cases slot with
      | none =>
        have : valueNeeded = false := by simpa [← hslot] using hvoid
        rw [this]
        exact .pure fun _ => trivial
      | some slot =>
        cases valueNeeded with
        | false => exact .pure fun _ => trivial
        | true => exact emits_load.andThen <| .pure fun _ => trivial

end

/-! ### Callees -/

theorem mem_of_found {path : String} {e : Error} {d : Definition} {cache cache' : ReturnCache}
    (h : (match scope.get? path with | some d => pure d | none => throw e : Infer Definition).run cache =
      some (.ok d, cache')) : d ∈ scope.definitions := by
  split at h
  case h_1 hget =>
    obtain ⟨rfl, -⟩ := run_pure_eq_ok.mp h
    exact Scope.mem_of_get? hget
  case h_2 => exact absurd h run_throw_ne_ok

theorem mem_of_callee {d : Definition} {cache cache' : ReturnCache}
    (h : (callee scope I site locals c).run cache = some (.ok d, cache')) : d ∈ scope.definitions := by
  unfold callee at h
  split at h
  · split at h
    · exact absurd h run_throw_ne_ok
    · split at h
      · exact mem_of_found h
      · obtain ⟨operand, c₁, -, h⟩ := run_bind_eq_ok.mp h
        exact mem_of_found h
  · split at h
    case h_1 hresolve =>
      obtain ⟨rfl, -⟩ := run_pure_eq_ok.mp h
      exact Scope.mem_of_resolve? hresolve
    case h_2 => exact absurd h run_throw_ne_ok

end FlatCode.Lower
