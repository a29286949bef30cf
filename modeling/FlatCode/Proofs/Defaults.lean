import FlatCode.Compile
import FlatCode.Machine.Run
import FlatCode.Program.Build
import FlatCode.Proofs.Questions

/-! Defaults of parameters. A default is bound before the body of its definition is entered, in the context of the call.
    So its calls mean what they mean where the call stands, and not what they mean at the definition; it is only for
    absolute names, and for callers in the namespace of the definition, that this must be the same. -/

namespace FlatCode.Lower
open Stateful

/-- The place is that of `root`, or the body of what was expanded last from there on. -/
def Context.StemsFrom (ctx root : Context) : Prop :=
  (ctx.expanding = root.expanding ∧ ctx.home = root.home) ∨ ∃ l, ctx.expanding = ctx.home :: l ++ root.expanding

variable {ctx : Context} {f : Definition} {E : Emitter} {param : Expr} {locals : Locals} {n : Nat} {s : State}

/-- Outside the bodies that are expanded from a context, names are read at its home. -/
theorem Context.StemsFrom.home_eq {root : Context} (h : ctx.StemsFrom root)
    (hexpanding : ctx.expanding = root.expanding) : ctx.home = root.home := by
  rcases h with ⟨-, hhome⟩ | ⟨l, hl⟩
  · exact hhome
  · have hlength := congrArg List.length (hl.symm.trans hexpanding)
    simp only [List.cons_append, List.length_cons, List.length_append] at hlength
    omega

section
variable {scope : Scope} {depth : Nat} {root : Context}

/-- Lowering stays in the places that are reached from where it starts. -/
theorem region_stemsFrom : Region scope depth fun ctx => Place scope depth ctx ∧ ctx.StemsFrom root where
  scope_eq h := h.1.scope_eq
  inferrer_eq h := h.1.inferrer_eq
  effects effects h := ⟨region_place.effects effects h.1, h.2⟩
  behind h := ⟨region_place.behind h.1, h.2⟩
  body h hd hfree := by
    refine ⟨region_place.body h.1 hd hfree, .inr ?_⟩
    rcases h.2 with ⟨hexpanding, -⟩ | ⟨l, hl⟩
    · exact ⟨[], congrArg _ hexpanding⟩
    · exact ⟨_ :: l, congrArg _ hl⟩

/-- The questions that are asked in the course of a computation with an emitter of depth `m`, where nothing is being
    expanded beyond what is being expanded at its start. -/
inductive AsksOutside {β : Type} (f : Emitter → Except Error β) (expanding : List String) (m : Nat) : Nat → Question → Prop
  | start {q} : DependsOn (Emitter.AgreeOff q) f (.atDepth m) → q.ctx.expanding = expanding → AsksOutside f expanding m m q
  | expr {n ctx locals e s q} : AsksOutside f expanding m (n + 1) (.expr ctx locals e s) →
      DependsOn (Emitter.AgreeOff q) (fun E => emitExpr E ctx locals e s) (.atDepth n) → q.ctx.expanding = expanding →
      AsksOutside f expanding m n q
  | statement {n ctx locals e s q} : AsksOutside f expanding m (n + 1) (.statement ctx locals e s) →
      DependsOn (Emitter.AgreeOff q) (fun E => lowerStatement E ctx locals e s) (.atDepth n) →
      q.ctx.expanding = expanding → AsksOutside f expanding m n q

namespace AsksOutside
variable {β : Type} {f : Emitter → Except Error β} {expanding : List String} {m n : Nat} {q : Question}

theorem expanding_eq (h : AsksOutside f expanding m n q) : q.ctx.expanding = expanding := by
  cases h <;> assumption

theorem stemsFrom (h : AsksOutside f expanding m n q)
    (hf : Orderly scope depth (fun ctx => Place scope depth ctx ∧ ctx.StemsFrom root) f) :
    Place scope depth q.ctx ∧ q.ctx.StemsFrom root := by
  induction h with
  | start hq _ => exact region_of_dependsOn region_stemsFrom hf hq
  | expr _ hq _ ih => exact region_of_dependsOn region_stemsFrom (.expr region_stemsFrom ih) hq
  | statement _ hq _ ih => exact region_of_dependsOn region_stemsFrom (.statement region_stemsFrom ih) hq

end AsksOutside

/-- Binds a parameter of `f` to its default, as an expansion of `f` does. Its type is found where `f` stands. -/
def bindDefault (E : Emitter) (ctx : Context) (f : Definition) (locals : Locals) (param : Expr) :
    Lowering (String × Local) :=
  bindLocal E ctx { home := f.path } locals param param.initial? true

theorem bindParameters_default {caller : Locals} {args : List Expr} {rest : List (Expr × Filling)} :
    bindParameters E ctx caller f args locals ((param, .default) :: rest) = (do
      let bound ← bindDefault E ctx f locals param
      bindParameters E ctx caller f args (bound :: locals) rest) := rfl

theorem Orderly.bindDefault {Z : Context → Prop} (hZ : Region scope depth Z) (h : Z ctx) :
    Orderly scope depth Z fun E => bindDefault E ctx f locals param s := by
  intro stops E E' hstops hE
  have hX : Coverage (.along stops) scope (.atDepth scope depth) fun _ ctx _ => Z ctx := hZ.coverage hstops trivial
  have hlockstep : Lockstep (.along stops) (Lower.bindDefault E ctx f locals param)
      (Lower.bindDefault E' (ctx.over scope (.atDepth scope depth)) f locals param) _ :=
    lockstep_bindLocal (n := 0) hX hE (fun _ _ _ => trivial) (hX.alike (n := 0) h) fun _ _ => h
  rw [hZ.over h] at hlockstep
  exact hlockstep.sync.beside s trivial

/-- While a default is bound, names are read at the home of the context, outside the bodies of what is expanded. -/
theorem home_of_asksOutside {m : Nat} {q : Question} (hctx : Place scope depth ctx)
    (h : AsksOutside (fun E => bindDefault E ctx f locals param s) ctx.expanding m n q) :
    Place scope depth q.ctx ∧ q.ctx.home = ctx.home := by
  obtain ⟨hplace, hstems⟩ := h.stemsFrom (.bindDefault region_stemsFrom ⟨hctx, .inl ⟨rfl, rfl⟩⟩)
  exact ⟨hplace, hstems.home_eq h.expanding_eq⟩

end

def Question.Leaves (E : Emitter) (t : State) : Question → Prop
  | .expr ctx locals e s => ∃ a, E.expr ctx locals e s = .ok (a, t)
  | .statement ctx locals e s => ∃ l, E.statement ctx locals e s = .ok (l, t)

/-- The expansion that was noted last is one of `d`, and its code starts where the code of `s` stops. -/
def State.Expanded (s t : State) (d : Definition) : Prop :=
  ∃ x rest, t.expansions = x :: rest ∧ x.callee = d.path ∧ x.start = s.code.size

section
variable {E : Emitter} {ctx : Context} {locals : Locals} {c : Call} {d : Definition} {s t : State}

/-- A plain call means what its name means at the home of the context. -/
theorem Context.callee_inv (h : ctx.callee locals c s = .ok (d, t)) (hmethod : c.isMethod = false) :
    ctx.scope.resolve? c.name ctx.home = some d ∧ t.code = s.code := by
  obtain ⟨cache, hrun, rfl⟩ := infer_inv h
  unfold Lower.callee at hrun
  rw [if_neg (Bool.eq_false_iff.mp hmethod)] at hrun
  split at hrun
  case h_1 hresolve =>
    obtain ⟨rfl, -⟩ := run_pure_eq_ok.mp hrun
    exact ⟨hresolve, rfl⟩
  case h_2 => exact absurd hrun run_throw_ne_ok

theorem expanded_of_expand {valueNeeded : Bool} {k : Option Kind}
    (h : expand E ctx locals c d valueNeeded s = .ok (k, t)) (hstruct : d.isStruct = false) : s.Expanded t d := by
  unfold expand at h
  obtain ⟨-, h⟩ := check_eq_ok.mp h
  obtain ⟨-, h⟩ := check_eq_ok.mp h
  obtain ⟨params, -, h⟩ := lift_bind_eq_ok.mp h
  obtain ⟨fillings, -, h⟩ := lift_bind_eq_ok.mp h
  rw [if_neg (Bool.eq_false_iff.mp hstruct)] at h
  obtain ⟨returns, s₁, hreturns, h⟩ := bind_eq_ok.mp h
  obtain ⟨cache, -, rfl⟩ := infer_inv hreturns
  obtain ⟨-, h⟩ := check_eq_ok.mp h
  obtain ⟨effects, -, h⟩ := lift_bind_eq_ok.mp h
  obtain ⟨start, _, hhere, h⟩ := bind_eq_ok.mp h
  cases hhere
  obtain ⟨bound, s₂, -, h⟩ := bind_eq_ok.mp h
  obtain ⟨slot, s₃, -, h⟩ := bind_eq_ok.mp h
  obtain ⟨exits, s₄, -, h⟩ := bind_eq_ok.mp h
  obtain ⟨⟨⟩, s₅, hnote, h⟩ := bind_eq_ok.mp h
  cases hnote
  -- What follows the note at most loads the result.
  cases slot with
  | none =>
    obtain ⟨-, rfl⟩ := pure_eq_ok.mp h
    exact ⟨_, _, rfl, rfl, rfl⟩
  | some slot =>
    cases valueNeeded with
    | false =>
      obtain ⟨-, rfl⟩ := pure_eq_ok.mp h
      exact ⟨_, _, rfl, rfl, rfl⟩
    | true =>
      obtain ⟨⟨⟩, s₆, hload, h⟩ := bind_eq_ok.mp h
      cases hload
      obtain ⟨-, rfl⟩ := pure_eq_ok.mp h
      exact ⟨_, _, rfl, rfl, rfl⟩

/-- A plain call that is answered is expanded to what its name means at the home of its context. -/
theorem Question.expanded_of_leaves {q : Question} {ts : List Transform} (h : q.Leaves (.atDepth n) t)
    (hq : q.subject = .call ts c) (hplain : c.isPlain = true) (hb : c.builtin? = none) :
    ∃ d, q.ctx.scope.resolve? c.name q.ctx.home = some d ∧ (d.isStruct = false → q.state.Expanded t d) := by
  obtain ⟨hbinding, hmethod⟩ : c.isBinding = false ∧ c.isMethod = false := by simpa [CallOf.isPlain] using hplain
  cases n with
  | zero => cases q <;> obtain ⟨_, ⟨⟩⟩ := h
  | succ n =>
    cases q with
    | expr ctx locals e s =>
      cases hq
      obtain ⟨a, h⟩ := h
      obtain ⟨ctx', hinside, h⟩ := lift_bind_eq_ok.mp (show emitExpr (.atDepth n) ctx locals (.call ts c) s = _ from h)
      obtain ⟨effects, -, rfl⟩ := Context.inside_inv hinside
      dsimp only at h
      rw [hbinding, hb] at h
      obtain ⟨d, s₁, hcallee, h⟩ := bind_eq_ok.mp h
      obtain ⟨k, s₂, hexpand, h⟩ := bind_eq_ok.mp h
      obtain ⟨hresolve, hcode⟩ := Context.callee_inv hcallee hmethod
      refine ⟨d, hresolve, fun hstruct => ?_⟩
      obtain ⟨x, rest, hx, hcallee, hstart⟩ := expanded_of_expand hexpand hstruct
      obtain rfl : s₂ = t := by
        cases k with
        | none => exact absurd h throw_ne_ok
        | some k => exact (pure_eq_ok.mp h).2
      exact ⟨x, rest, hx, hcallee, hstart.trans (congrArg _ hcode)⟩
    | statement ctx locals e s =>
      cases hq
      obtain ⟨l, h⟩ := h
      obtain ⟨ctx', hinside, h⟩ :=
        lift_bind_eq_ok.mp (show lowerStatement (.atDepth n) ctx locals (.call ts c) s = _ from h)
      obtain ⟨effects, -, rfl⟩ := Context.inside_inv hinside
      dsimp only at h
      rw [hbinding, hb] at h
      obtain ⟨d, s₁, hcallee, h⟩ := bind_eq_ok.mp h
      obtain ⟨k, s₂, hexpand, h⟩ := bind_eq_ok.mp h
      obtain ⟨-, rfl⟩ := pure_eq_ok.mp h
      obtain ⟨hresolve, hcode⟩ := Context.callee_inv hcallee hmethod
      refine ⟨d, hresolve, fun hstruct => ?_⟩
      obtain ⟨x, rest, hx, hcallee, hstart⟩ := expanded_of_expand hexpand hstruct
      exact ⟨x, rest, hx, hcallee, hstart.trans (congrArg _ hcode)⟩

end

/-- An absolute name means the same everywhere, and any name means the same in one namespace. -/
theorem resolve?_eq_of_enclosing {scope : Scope} {name home home' : String}
    (h : Path.isAbsolute name = true ∨ Path.enclosing home = Path.enclosing home') :
    scope.resolve? name home = scope.resolve? name home' := by
  unfold Scope.resolve?
  rcases h with habsolute | henclosing
  · rw [if_pos habsolute, if_pos habsolute]
  · rw [henclosing]

/-- A default is bound where the call stands. In an expansion of `f` in the context of a question that is asked while a
    program is lowered, the calls of the default of a parameter, and of the defaults and arguments in it, are expanded to
    what their names mean at the path of the caller. That is what they mean at the path of `f` if they are absolute or the
    caller stands in the namespace of `f`, and otherwise only if both lookups happen to agree. -/
theorem defaults_resolve_at_caller {p : Program} {depth : Nat} {entry : String} {defaults entryDefaults : List String}
    {scope : Scope} {m : Nat} {caller : Question} (hscope : Scope.build p = .ok scope)
    (hcaller : Asks p depth entry defaults entryDefaults m caller) (effects : EffectSet) (f : Definition) (param : Expr)
    (locals : Locals) (s : State) {k n : Nat} {q : Question}
    (hq : AsksOutside (fun E => bindDefault E { caller.ctx with effects } f locals param s) caller.ctx.expanding k n q) :
    q.ctx.home = caller.ctx.home ∧
      ∀ ts c t, q.subject = .call ts c → c.isPlain = true → c.builtin? = none → q.Leaves (.atDepth n) t →
        ∃ d, scope.resolve? c.name caller.ctx.home = some d ∧ (d.isStruct = false → q.state.Expanded t d) ∧
          (Path.isAbsolute c.name = true ∨ Path.enclosing caller.ctx.home = Path.enclosing f.path →
            scope.resolve? c.name f.path = some d) := by
  have hctx : Place scope depth { caller.ctx with effects } := region_place.effects effects (hcaller.place hscope)
  obtain ⟨hplace, hhome⟩ := home_of_asksOutside hctx hq
  refine ⟨hhome, fun ts c t hsubject hplain hb ht => ?_⟩
  obtain ⟨d, hresolve, hexpanded⟩ := Question.expanded_of_leaves ht hsubject hplain hb
  rw [hplace.scope_eq, hhome] at hresolve
  exact ⟨d, hresolve, hexpanded, fun h => (resolve?_eq_of_enclosing h).symm.trans hresolve⟩

def returningInt (path : String) (parameters : List Expr) (result : Expr) : Definition :=
  { path, parameters, transforms := [{ name := "return", templateArgs := ["i32"] }], result := some result }

def defaultedParameter : Expr :=
  .call [{ name := "i32" }] { name := "x", args := [.plainCall "g" []], labels := [none], isBinding := true }

def rehoming : Program := {
  definitions := [
    returningInt "/a/f" [defaultedParameter] (.ident "x"),
    returningInt "/a/g" [] (.int32 1),
    returningInt "/g" [] (.int32 2),
    returningInt "/main" [] (.plainCall "/a/f" [])] }

def rehomingScope : Scope := { definitions := rehoming.definitions, aliases := [] }

def rehomingContext (returns : ReturnInfo) : Context := {
  scope := rehomingScope
  inferrer := .atDepth rehomingScope rehoming.depth
  defaults := .empty, home := "/main", effects := .empty, expanding := ["/main"], target := .run returns }

def rehomingState : State := { cache := [("/main", .value .int32)] }

/-- The only statement of the entry is the first that is lowered. -/
theorem rehoming_body {f : Error}
    (h : E.statement (rehomingContext (.value .int32)) [] (.plainCall "return" [.plainCall "/a/f" []]) rehomingState =
      .error f) :
    rehoming.loweredWith (Inferrer.atDepth · rehoming.depth) E "/main" [] [] = .error f := by
  let entry := returningInt "/main" [] (.plainCall "/a/f" [])
  have hentry : lowerEntry E (rehomingContext .void) entry {} = .error f := lowerEntry_of_statement rfl rfl rfl rfl h
  unfold Program.loweredWith
  rw [show Scope.build rehoming = .ok rehomingScope from rfl]
  show (lowerEntry E (rehomingContext .void) entry {} >>= fun r => _) = _
  rw [hentry]
  rfl

/-- The default is bound by emitting its call. -/
theorem rehoming_default {f : Error}
    (h : E.expr (rehomingContext (.value .int32)) [] (.plainCall "g" []) { rehomingState with nextSlot := 1 } =
      .error f) :
    bindDefault E (rehomingContext (.value .int32)) (returningInt "/a/f" [defaultedParameter] (.ident "x")) []
      defaultedParameter rehomingState = .error f := by
  show ((E.expr (rehomingContext (.value .int32)) [] _ { rehomingState with nextSlot := 1 } >>= fun r => _) >>=
    fun r => _) = _
  rw [h]
  rfl

theorem rehoming_calls : ∃ n, Asks rehoming rehoming.depth "/main" [] [] (n + 1)
    (.expr (rehomingContext (.value .int32)) [] (.plainCall "/a/f" []) rehomingState) := by
  obtain ⟨n, hn⟩ : ∃ n, rehoming.depth = n + 2 := ⟨_, rfl⟩
  have hbody {m : Nat} (hm : rehoming.depth = m) : Asks rehoming rehoming.depth "/main" [] [] m
      (.statement (rehomingContext (.value .int32)) [] (.plainCall "return" [.plainCall "/a/f" []]) rehomingState) := by
    subst hm
    exact .start (dependsOn_of_strict fun _ _ _ hf => rehoming_body hf)
  exact ⟨n, .statement (hbody hn) (dependsOn_of_strict fun _ _ _ hf => lowerStatement_of_returned rfl hf)⟩

/-- The program is accepted, and the call in the default is expanded to the `g` beside the entry, though at the path of the
    definition its name means the other one. -/
theorem rehoming_resolves_at_entry :
    (∃ t, State.Expanded { rehomingState with nextSlot := 1 } t (returningInt "/g" [] (.int32 2)) ∧
      Question.Leaves (.atDepth 9) t (.expr (rehomingContext (.value .int32)) [] (.plainCall "g" [])
        { rehomingState with nextSlot := 1 })) ∧
      rehomingScope.resolve? "g" "/a/f" = some (returningInt "/a/g" [] (.int32 1)) ∧
      ∃ m, rehoming.compile {} = .ok m ∧ Machine.run m #[] 14 = .ok { value := some 2, output := {} } := by
  obtain ⟨n, hasks⟩ := rehoming_calls
  obtain ⟨-, hcalls⟩ := @defaults_resolve_at_caller rehoming rehoming.depth "/main" [] [] rehomingScope _ _ rfl hasks .empty
    (returningInt "/a/f" [defaultedParameter] (.ident "x")) defaultedParameter [] rehomingState 9 9
    (.expr (rehomingContext (.value .int32)) [] (.plainCall "g" []) { rehomingState with nextSlot := 1 })
    (.start (dependsOn_of_strict fun _ _ _ hf => rehoming_default hf) rfl)
  obtain ⟨a, t, ht⟩ : ∃ a t, emitExpr (.atDepth 8) (rehomingContext (.value .int32)) [] (.plainCall "g" [])
      { rehomingState with nextSlot := 1 } = .ok (a, t) := ⟨_, _, rfl⟩
  obtain ⟨d, hresolve, hexpanded, -⟩ := hcalls [] _ t rfl rfl rfl ⟨a, ht⟩
  cases hresolve
  have hrun : ((rehoming.compile {}).toOption.bind fun m => (Machine.run m #[] 14).toOption) =
      some { value := some 2, output := {} } := by decide +kernel
  obtain ⟨m, hm, hvalue⟩ := Option.bind_eq_some_iff.mp hrun
  exact ⟨⟨t, hexpanded rfl, a, ht⟩, rfl, m, except_eq_ok_of_toOption hm, except_eq_ok_of_toOption hvalue⟩

end FlatCode.Lower
