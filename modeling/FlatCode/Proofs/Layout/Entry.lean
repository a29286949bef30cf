import FlatCode.Lower.Program
import FlatCode.Proofs.Layout.Statement

/-! The code of a lowered entry: a piece that is laid out from its program, without exits, and a return after it where
    one is needed. -/

namespace FlatCode

/-- The program lists an effect: a default list does, or an `effects(...)` of a definition. -/
inductive Program.Lists (p : Program) (defaults entryDefaults : List String) (x : Effect) : Prop
  | default (h : x.name ∈ defaults)
  | entryDefault (h : x.name ∈ entryDefaults)
  | declared {d : Definition} {t : Transform} (hd : d ∈ p.definitions) (ht : t ∈ d.transforms) (ht' : t.name = "effects")
    (h : x.name ∈ t.arguments)

namespace Lower
open Stateful

def realm (p : Program) (defaults entryDefaults strings : List String) : Realm where
  definitions := p.definitions
  allows := p.Lists defaults entryDefaults
  strings := strings
  declared d hd s hs x hx := by
    obtain ⟨t, ht, hname, hx⟩ := EffectSet.mem_of_explicit? hs hx
    exact .declared hd ht hname hx

def entryContext (depth : Nat) (scope : Scope) (d : Definition) (entry : String) (defaults effects : EffectSet) :
    Context :=
  { scope, inferrer := .atDepth scope depth, defaults, home := entry, effects, expanding := [d.path]
    target := .run .void }

variable {ctx : Context} {d : Definition} {depth : Nat} {E : Emitter} {l : Lowered} {P : Prop} {u : Realm}

/-- An entry is lowered in a scope that is built for its program, to less than the capacity. -/
theorem lowered_inv {p : Program} {entry : String} {defaults entryDefaults : List String}
    (h : p.loweredTo depth entry defaults entryDefaults = .ok l) :
    ∃ scope defaults' effects, Scope.build p = .ok scope ∧ scope.get? entry = some l.entry ∧
      lowerEntry (.atDepth depth) (entryContext depth scope l.entry entry defaults' effects) l.entry {}
        = .ok (l.returns, l.state) ∧
      l.state.code.size < capacity ∧ l.state.strings.size < capacity ∧
      EffectSet.parse defaults "default effects" = .ok defaults' ∧
      ∃ entryDefaults', EffectSet.parse entryDefaults "entry default effects" = .ok entryDefaults' ∧
        EffectSet.active l.entry.transforms entryDefaults' l.entry.path = .ok effects := by
  obtain ⟨scope, hscope, h₁⟩ := except_bind_eq_ok.mp h
  obtain ⟨defaults', hdefaults, h₂⟩ := except_bind_eq_ok.mp h₁
  obtain ⟨entryDefaults', hentry, h₃⟩ := except_bind_eq_ok.mp h₂
  split at h₃
  · exact nomatch h₃
  case h_2 d hd =>
    obtain ⟨-, -, h₄⟩ := except_bind_eq_ok.mp h₃
    obtain ⟨-, h₅⟩ := except_check_eq_ok.mp h₄
    obtain ⟨effects, heffects, h₆⟩ := except_bind_eq_ok.mp h₅
    obtain ⟨⟨returns, state⟩, hrun, h₇⟩ := except_bind_eq_ok.mp h₆
    obtain ⟨hsize, h₈⟩ := except_check_eq_ok.mp h₇
    cases h₈
    simp only [Bool.or_eq_true, decide_eq_true_eq, not_or, Nat.not_le] at hsize
    exact ⟨scope, defaults', effects, hscope, hd, hrun, hsize.1, hsize.2, hdefaults, entryDefaults', hentry, heffects⟩

theorem loweredTo_of_lower {p : Program} {entry : String} {defaults entryDefaults : List String} {m : CodeModule}
    (h : p.lower entry defaults entryDefaults = .ok m) :
    ∃ depth l, p.loweredTo depth entry defaults entryDefaults = .ok l ∧ l.codeModule = m := by
  obtain ⟨l, hl, hm⟩ := except_bind_eq_ok.mp h
  split at hl <;> exact ⟨_, l, hl, Except.ok.inj hm⟩

/-- The body of an entry is lowered as a block, and a return is added if its end can be reached. -/
theorem lowerEntry_inv {s t : State} {returns : ReturnInfo} (h : lowerEntry E ctx d s = .ok (returns, t)) :
    ∃ s₁ s₂ s₃ locals, ctx.returnInfo d s = .ok (returns, s₁) ∧ entryLocals ctx.scope d s₁ = .ok (locals, s₂) ∧
      E.block { ctx with target := .run returns } locals d.body s₂ = .ok ((), s₃) ∧
      (t = s₃ ∧ (returns.isVoid → reachesEnd s₃.code = false) ∨
        returns.isVoid ∧ emit .returnVoid s₃ = .ok ((), t)) := by
  obtain ⟨returns', s₁, hreturns, h₁⟩ := bind_eq_ok.mp h
  obtain ⟨locals, s₂, hlocals, h₂⟩ := bind_eq_ok.mp h₁
  obtain ⟨-, h₃⟩ := check_eq_ok.mp h₂
  obtain ⟨⟨⟩, s₃, hblock, h₄⟩ := bind_eq_ok.mp h₃
  obtain ⟨_, _, hget, h₅⟩ := bind_eq_ok.mp h₄
  cases hget
  split at h₅
  case isTrue hend =>
    obtain ⟨⟨⟩, u, hemit, h₆⟩ := bind_eq_ok.mp h₅
    obtain ⟨rfl, rfl⟩ := pure_eq_ok.mp h₆
    exact ⟨s₁, s₂, s₃, locals, hreturns, hlocals, hblock, .inr ⟨(Bool.and_eq_true_iff.mp hend).1, hemit⟩⟩
  case isFalse hend =>
    obtain ⟨rfl, rfl⟩ := pure_eq_ok.mp h₅
    refine ⟨s₁, s₂, s₃, locals, hreturns, hlocals, hblock, .inl ⟨rfl, fun hvoid => ?_⟩⟩
    simpa [hvoid] using hend

theorem emits_entryLocals {below : Option Nat} {d : Nat} {scope : Scope} {entry : Definition} :
    Emits u below P False d d (entryLocals scope entry) u.Texts := by
  unfold entryLocals
  split
  · exact .pure fun _ => .nil
  · refine .liftBind fun _ _ => ?_
    split
    · refine .ite (fun _ => emits_newSlot.bind fun _ => .pure fun _ => ?_) fun _ => .throw
      exact .cons nofun .nil
    · exact .throw
  · exact .throw

theorem emits_entryBody {ctx' : Context} (hE : E.Good u) (hctx : u.Admits ctx') (hbelow : ctx'.below = none) :
    Emits u none P (Returns.listSurely d.body = true) 0 0 (do
      let _ ← ctx.returnInfo d
      let locals ← entryLocals ctx.scope d
      E.block ctx' locals d.body) fun _ => True :=
  emits_infer.bind fun _ => emits_entryLocals.bindWith fun _ => (hbelow ▸ hE.block hctx).assuming And.right

/-- The code of an entry is that of `q`, and the strings and expansions are those of `q`, too. A void entry whose code
    can run off the end of `q` has a return there. -/
structure Lowered.Laid (l : Lowered) (q : Piece) : Prop where
  balanced : q.Balanced l.state.strings.size none 0 0
  expansions : l.state.expansions = q.expansions 0
  code : l.state.code.toList = q.code 0 0 ∧ (l.returns.isVoid → reachesEnd l.state.code = false) ∨
    l.returns.isVoid ∧ l.state.code.toList = q.code 0 0 ++ [{ op := .returnVoid }]

theorem Lowered.Laid.code_append {q : Piece} (h : l.Laid q) : ∃ tail, l.state.code.toList = q.code 0 0 ++ tail := by
  rcases h.code with ⟨hcode, -⟩ | ⟨-, hcode⟩
  · exact ⟨[], hcode.trans (List.append_nil _).symm⟩
  · exact ⟨_, hcode⟩

section
variable {p : Program} {entry : String} {defaults entryDefaults : List String} {l : Lowered}
  (h : p.loweredTo depth entry defaults entryDefaults = .ok l)
include h

/-- The body of a lowered entry is laid out from its program, and departs if it is sure to leave. -/
theorem body_of_lowered :
    ∃ (q : Piece) (s : State), Extends {} q s ∧ q.Laid (realm p defaults entryDefaults l.state.strings.toList) none 0 0 ∧
      (Returns.listSurely l.entry.body = true → q.Departs) ∧
      (l.state = s ∧ (l.returns.isVoid → reachesEnd s.code = false) ∨
        l.returns.isVoid ∧ emit .returnVoid s = .ok ((), l.state)) := by
  obtain ⟨scope, defaults', effects, hscope, hentry, hrun, -, -, hdefaults, entryDefaults', hentryDefaults, heffects⟩ :=
    lowered_inv h
  obtain ⟨s₁, s₂, s₃, locals, hreturns, hlocals, hblock, hend⟩ := lowerEntry_inv hrun
  let u := realm p defaults entryDefaults l.state.strings.toList
  have hdefinitions : scope.definitions = u.definitions := Scope.definitions_of_build hscope
  have hadmits : u.Admits { entryContext depth scope l.entry entry defaults' effects with target := .run l.returns } := by
    refine ⟨hdefinitions, ⟨depth, rfl⟩, fun x hx => .default (EffectSet.mem_of_parse hdefaults hx), fun x hx => ?_⟩
    obtain ⟨explicit, hexplicit, h₁⟩ := except_bind_eq_ok.mp heffects
    cases h₁
    cases explicit with
    | none => exact .entryDefault (EffectSet.mem_of_parse hentryDefaults hx)
    | some s => exact u.declared l.entry (hdefinitions ▸ Scope.mem_of_get? hentry) s hexplicit x hx
  obtain ⟨q, hq, hlaid⟩ := emits_entryBody (P := True) (Emitter.good_atDepth u depth) hadmits rfl {} () s₃
    (bind_eq_ok.mpr ⟨_, _, hreturns, bind_eq_ok.mpr ⟨_, _, hlocals, hblock⟩⟩)
  have hstrings : s₃.strings = l.state.strings := by
    rcases hend with ⟨hstate, -⟩ | ⟨-, hemit⟩
    · rw [hstate]
    · exact (emitWith_inv hemit rfl).2.strings.symm
  obtain ⟨hlaid, hdep, -⟩ := hlaid trivial (hstrings ▸ List.prefix_rfl)
  exact ⟨q, s₃, hq, hlaid, hdep, hend⟩

/-- Every lowered entry is laid out from its program, and departs if its body is sure to leave. -/
theorem piece_of_lowered :
    ∃ q : Piece, l.Laid q ∧ q.Laid (realm p defaults entryDefaults l.state.strings.toList) none 0 0 ∧
      (Returns.listSurely l.entry.body = true → q.Departs) := by
  obtain ⟨q, s, hq, hlaid, hdep, hend⟩ := body_of_lowered h
  refine ⟨q, ?_, hlaid, hdep⟩
  have hexpansions : s.expansions = q.expansions 0 := hq.expansions.trans (List.append_nil _)
  have hbalanced : q.Balanced l.state.strings.size none 0 0 := hlaid.balanced
  rcases hend with ⟨hstate, hvoid⟩ | ⟨hvoid, hemit⟩
  · exact ⟨hbalanced, hstate ▸ hexpansions, .inl ⟨hstate ▸ hq.code, hstate ▸ hvoid⟩⟩
  · obtain ⟨hext, hsame⟩ := emitWith_inv hemit rfl
    refine ⟨hbalanced, hsame.expansions.trans hexpansions, .inr ⟨hvoid, ?_⟩⟩
    rw [hext.code, hq.code]
    rfl

/-- The state of a lowered entry has grown by a piece without exits. -/
theorem extends_of_lowered :
    ∃ q, Extends {} q l.state ∧ ∀ k, q.exits k = [] := by
  obtain ⟨q, s, hq, hlaid, -, hend⟩ := body_of_lowered h
  have hexits := hlaid.balanced.exits_eq_nil
  rcases hend with ⟨hstate, -⟩ | ⟨-, hemit⟩
  · exact ⟨q, hstate ▸ hq, hexits⟩
  · exact ⟨_, hq.seq (emitWith_inv hemit rfl).1, fun k => by simp [Piece.exits, hexits]⟩

/-- Every lowered entry is laid out as a balanced piece. -/
theorem laid_of_lowered : ∃ q, l.Laid q := by
  obtain ⟨q, hq, -⟩ := piece_of_lowered h
  exact ⟨q, hq⟩

end
end Lower
end FlatCode
