import FlatCode.Compile
import FlatCode.Proofs.Building.Basic
import FlatCode.Proofs.Safety
import FlatCode.Proofs.Slots.Statement

/-! Programs of one entry. If the body of the entry is built, the program is accepted and lowered, and the behaviour of the
    code decides what every run of the module gives that has enough steps. -/

namespace FlatCode

namespace Machine
open Lower

/-! ### Results of runs -/

def Result.returned (w : Word) : Result := { value := some w, output := {} }

def Result.printed (text : String) : Result := { value := none, output := { stdout := text ++ "\n" } }

def Result.reported (message : String) : Result := { value := some 3, output := { stderr := message ++ "\n" } }

/-- Every run of the module on the arguments that has enough steps ends with the result. -/
def EndsWith (m : CodeModule) (args : Array String) (r : Result) : Prop :=
  ∃ steps, ∀ limit, run m args limit = if limit < steps then .error .stepLimit else .ok r

theorem failed_eq_reported (message : String) : Output.failed {} message = .reported message := by
  simp [Output.failed, Output.write, Result.reported, failureCode]

/-- A run on the arguments may start there, with `n` slots and more. -/
structure Starts (n : Nat) (args : Array String) (env : Env) (m : State) : Prop extends m.Roomy n where
  args : env.args = args
  stack : m.stack = []
  output : m.output = {}

/-! ### Runs of a piece -/

theorem slotCount_le {code : Array Instruction} {n : Nat}
    (h : ∀ i ∈ code.toList, i.op.namesSlot = true → i.imm.toNat < n) : slotCount code ≤ n := by
  refine Array.foldl_induction (motive := fun _ k => k ≤ n) (Nat.zero_le n) fun i k hk => ?_
  split
  case isTrue hop =>
    have hlt := h code[i] (Array.getElem_mem_toList _) hop
    exact Nat.max_le.mpr ⟨hk, Nat.le_trans (Nat.min_le_left ..) hlt⟩
  case isFalse => exact hk

section
variable {l : Lowered} {q : Piece} {args : Array String} {r : Result}

theorem endsWith_of_count {count : Nat} (hmax : slotCount l.state.code ≤ maxSlots)
    (hless : ∀ n < count, runFrom (loweredEnv l args) n (loweredStart l) = .error .stepLimit)
    (hmore : ∀ n, runFrom (loweredEnv l args) (count + n) (loweredStart l) = .ok r) : EndsWith l.codeModule args r := by
  refine ⟨count, fun limit => ?_⟩
  rw [run_codeModule, if_neg (Nat.not_lt.mpr hmax)]
  split
  case isTrue hlt => exact hless limit hlt
  case isFalse hlt =>
    obtain ⟨n, rfl⟩ := Nat.exists_eq_add_of_le (Nat.not_lt.mp hlt)
    exact hmore n

/-- The machine runs the piece at the start of the code as it leads. -/
theorem Leads.runs {tail : List Instruction} {f : Flow} (h : Leads (loweredEnv l args) q (loweredStart l) f)
    (hcode : l.state.code.toList = q.code 0 0 ++ tail) (hsize : l.state.code.size < 2 ^ 64) :
    ∃ fuel g, f.Matches g ∧ g.Runs (loweredEnv l args) (region q 0 0) q.size fuel (loweredStart l) := by
  obtain ⟨least, hleast⟩ := h
  have hend : 0 + q.size ≤ l.state.code.size := (Nat.zero_add _).symm ▸ size_le_of_toList hcode
  have hruns : (exec (loweredEnv l args) least q (loweredStart l)).Runs (loweredEnv l args) (region q 0 0) (0 + q.size) least
      (loweredStart l) :=
    exec_runs q least hsize hend (Nat.zero_le _) (.of_toList hcode) rfl
  rw [Nat.zero_add] at hruns
  exact ⟨least, _, hleast least (Nat.le_refl _) 0, hruns⟩

/-- A piece that ends the run. -/
theorem endsWith_of_halt {tail : List Instruction} (h : Leads (loweredEnv l args) q (loweredStart l) (.halt (.ok r)))
    (hcode : l.state.code.toList = q.code 0 0 ++ tail) (hsize : l.state.code.size < 2 ^ 64)
    (hmax : slotCount l.state.code ≤ maxSlots) : EndsWith l.codeModule args r := by
  obtain ⟨fuel, g, hg, hruns⟩ := h.runs hcode hsize
  cases hg
  obtain ⟨count, hless, hmore⟩ := hruns.runFrom_halt
  exact endsWith_of_count hmax hless hmore

/-- A piece that comes to its end in an entry that returns nothing. -/
theorem endsWith_of_next {t : State} (h : Leads (loweredEnv l args) q (loweredStart l) (.next t))
    (hcode : l.state.code.toList = q.code 0 0 ∧ reachesEnd l.state.code = false ∨
      l.state.code.toList = q.code 0 0 ++ [{ op := .returnVoid }]) (hsize : l.state.code.size < 2 ^ 64)
    (hmax : slotCount l.state.code ≤ maxSlots) : EndsWith l.codeModule args { value := none, output := t.output } := by
  rcases hcode with ⟨hcode, hend⟩ | hcode
  · have hcode' := hcode.trans (List.append_nil _).symm
    obtain ⟨fuel, g, ⟨pc, rfl⟩, hpc, trace, hsteps, -⟩ := h.runs hcode' hsize
    have hstop : q.size = l.state.code.size := by rw [← Array.length_toList, hcode, Piece.length_code]
    exact absurd (hpc.trans hstop) (hsteps.ne_end rfl hend)
  · obtain ⟨fuel, g, ⟨pc, rfl⟩, hruns⟩ := h.runs hcode hsize
    have hpc : pc = q.size := hruns.1
    have hret : (loweredEnv l args).code[pc]? = some { op := .returnVoid } := by
      rw [hpc]
      show l.state.code[q.size]? = _
      rw [← Array.getElem?_toList, hcode, List.getElem?_append_right (Nat.le_of_eq (Piece.length_code ..)),
        Piece.length_code, Nat.sub_self, List.getElem?_cons_zero]
    obtain ⟨count, hless, hmore⟩ := hruns.runFrom_next
    have hlast : runFrom (loweredEnv l args) count (loweredStart l) = .error .stepLimit := by
      refine (hmore 0).trans ?_
      rw [runFrom, hret]
    have hless' : ∀ n < count + 1, runFrom (loweredEnv l args) n (loweredStart l) = .error .stepLimit := fun n hn =>
      (Nat.lt_or_eq_of_le (Nat.le_of_lt_succ hn)).elim (hless n) fun h => h ▸ hlast
    refine endsWith_of_count hmax hless' fun n => ?_
    rw [Nat.add_assoc, hmore, Nat.add_comm, runFrom, hret]
    rfl

end
end Machine

/-! ### Entries -/

/-- The header of an entry, the effect lists that its program is compiled with, and what they say: the effects that are
    inherited and those in force, and the result, if there is a `return<T>`. -/
structure Heading where
  transforms : List Transform
  defaults : List String
  entryDefaults : List String
  inherited : EffectSet
  effects : EffectSet
  returns? : Option ReturnInfo
  notStruct : transforms.any (·.name == "struct") = false
  known : EffectSet.parse defaults "default effects" = .ok inherited
  active : (do EffectSet.active transforms (← EffectSet.parse entryDefaults "entry default effects") "/main") = .ok effects
  declared : ReturnInfo.declared? { path := "/main", transforms } = .ok returns?

/-- A header that declares no result; the entry may take memory from the heap and print. -/
def Heading.plain : Heading where
  transforms := [{ name := "effects", arguments := ["heap_alloc", "io_out"] }]
  defaults := ["io_out"]
  entryDefaults := []
  inherited := .ofList [.ioOut]
  effects := .ofList [.heapAlloc, .ioOut]
  returns? := none
  notStruct := rfl
  known := rfl
  active := rfl
  declared := rfl

/-- What a run gives whose code behaves so: the result with which it ends, or what it has printed if it comes to the end
    and returns nothing. -/
def Lower.Behaviour.Answers (R : Behaviour) (isVoid : Bool) (env : Machine.Env) (m : Machine.State)
    (r : Machine.Result) : Prop :=
  R env m (.halt (.ok r)) ∨ isVoid = true ∧ ∃ m', R env m (.next m') ∧ r = { value := none, output := m'.output }

namespace Heading
open Lower Stateful Machine

section
variable (h : Heading) (parameters body : List Expr)

def entry : Definition := { path := "/main", transforms := h.transforms, parameters, statements := body }

def program : Program := { definitions := [h.entry parameters body] }

def scope : Scope := { definitions := [h.entry parameters body], aliases := [] }

def options : CompileOptions := { defaults := h.defaults, entryDefaults := h.entryDefaults }

def context (returns : ReturnInfo) : Lower.Context :=
  { entryContext (h.program parameters body).depth (h.scope parameters body) (h.entry parameters body) "/main"
      h.inherited h.effects with target := .run returns }

end

variable {h : Heading} {parameters body : List Expr} {returns : ReturnInfo} {cache : ReturnCache} {locals : Locals}
  {n₀ n top cost : Nat} {R : Behaviour}

variable {s t : Lower.State} {cache' : ReturnCache}

theorem lowered_eq (hentry : lowerEntry (.atDepth (h.program parameters body).depth)
      (h.context parameters body .void) (h.entry parameters body) {} = .ok (returns, t))
    (hcode : t.code.size < capacity) (hstrings : t.strings.size < capacity) :
    (h.program parameters body).lowered "/main" h.defaults h.entryDefaults =
      .ok { entry := h.entry parameters body, returns, state := t } := by
  obtain ⟨entryDefaults, hentryDefaults, hactive⟩ := except_bind_eq_ok.mp h.active
  refine except_bind_eq_ok.mpr ⟨h.scope parameters body, rfl, except_bind_eq_ok.mpr ⟨h.inherited, h.known,
    except_bind_eq_ok.mpr ⟨entryDefaults, hentryDefaults, ?_⟩⟩⟩
  have hget : (h.scope parameters body).get? "/main" = some (h.entry parameters body) := rfl
  simp only [hget]
  refine except_bind_eq_ok.mpr ⟨(), rfl, except_bind_eq_ok.mpr ⟨h.effects, hactive,
    except_bind_eq_ok.mpr ⟨(returns, t), hentry, ?_⟩⟩⟩
  exact except_check_eq_ok.mpr ⟨by simp [hcode, hstrings], rfl⟩

/-- The slots of a lowered block are among those that it has taken. -/
theorem slotCount_block {depth : Nat} {ctx : Lower.Context}
    (hblock : (Emitter.atDepth depth).block ctx locals body s = .ok ((), t)) (hs : s.code = #[])
    (hlocals : ∀ l ∈ locals, l.2.slot < s.nextSlot) (htarget : ctx.resultSlot? = none) (hn : t.nextSlot ≤ maxSlots) :
    slotCount t.code ≤ t.nextSlot := by
  have hroom : Room (fun _ => True) s.nextSlot ctx locals :=
    ⟨fun _ _ => trivial, hlocals, fun k hk => nomatch htarget.symm.trans hk⟩
  obtain ⟨p, hp, hops, -⟩ := (Emitter.frames_atDepth depth).block hroom (fun _ _ _ _ _ _ => trivial) s () t
    (Nat.le_refl _) hblock
  refine slotCount_le fun i hi hop => ?_
  rw [hp.code, hs] at hi
  exact (Piece.within_code hops (Nat.le_trans hn (by decide)) 0 _ i hi hop).1

theorem slotCount_push {code : Array Instruction} : slotCount (code.push { op := .returnVoid }) = slotCount code := by
  rw [slotCount, Array.foldl_push]
  rfl

/-- The slots that code stores to are counted. -/
theorem top_le_slotCount {q : Piece} (hq : Adds s q t n top cost) (hn : n ≤ 2 ^ 64)
    (hmax : slotCount t.code ≤ maxSlots) : top ≤ slotCount t.code := by
  rcases Nat.eq_zero_or_pos top with rfl | hpos
  · exact Nat.zero_le _
  · obtain ⟨k, hk, hle, hstores⟩ := hq.stores hpos
    have hmem : { op := .storeLocal, imm := UInt64.ofNat k } ∈ t.code.toList := by
      rw [hq.code]
      exact List.mem_append_right _ (hstores.mem_code ..)
    have hlt := lt_slotCount hmax hmem rfl
    rw [UInt64.toNat_ofNat_of_lt' (Nat.lt_of_lt_of_le hk hn)] at hlt
    omega

section
variable
    (hinfo : (Lower.returnInfo (h.scope parameters body) (.atDepth (h.scope parameters body)
      (h.program parameters body).depth) [] (h.entry parameters body)).run [] = some (.ok returns, cache))
    (hlocals : entryLocals (h.scope parameters body) (h.entry parameters body) { cache } =
      .ok (locals, { cache, nextSlot := n₀ }))
    (hslots : ∀ l ∈ locals, l.2.slot < n₀) (hreturn : returns.isVoid = true ∨ Returns.contains body = true)
    (hbody : Builds n₀ ((Emitter.atDepth (h.program parameters body).depth).block (h.context parameters body returns) locals
      body) () n top cost R) (hcost : cost + 1 < capacity) (htop : n ≤ top)

include hinfo hlocals hreturn

/-- What a lowered entry is, if its block has led to the state `t`. -/
theorem lowerEntry_eq
    (hblock : (Emitter.atDepth (h.program parameters body).depth).block (h.context parameters body returns) locals body
      { cache, nextSlot := n₀ } = .ok ((), t)) :
    lowerEntry (.atDepth (h.program parameters body).depth) (h.context parameters body .void) (h.entry parameters body) {} =
      .ok (returns,
        if returns.isVoid && reachesEnd t.code then { t with code := t.code.push { op := .returnVoid } } else t) := by
  have hinfo' : (h.context parameters body .void).returnInfo (h.entry parameters body) {} = .ok (returns, { cache }) :=
    infer_of_run hinfo
  have hpassed : ¬((!returns.isVoid && !Returns.contains body) = true) := by
    rcases hreturn with h | h <;> simp [h]
  refine bind_eq_ok.mpr ⟨returns, _, hinfo', bind_eq_ok.mpr ⟨locals, _, hlocals, check_eq_ok.mpr ⟨hpassed,
    bind_eq_ok.mpr ⟨(), t, hblock, bind_eq_ok.mpr ⟨t, t, rfl, ?_⟩⟩⟩⟩⟩
  split <;> rfl

include hslots hbody hcost htop

/-- If the body of an entry is built, the entry is lowered. What its code does decides what runs give, unless it has more
    slots than a run may have. -/
theorem lowered_of_builds_any :
    ∃ l, (h.program parameters body).lowered "/main" h.defaults h.entryDefaults = .ok l ∧
      (n ≤ maxSlots → ∀ args r, (∀ env m, Starts n args env m → R.Answers returns.isVoid env m r) →
        EndsWith l.codeModule args r) ∧
      (maxSlots < n → n ≤ 2 ^ 64 → ∀ args limit, ∃ count, run l.codeModule args limit = .error (.tooManySlots count)) := by
  obtain ⟨q, t, hblock, hq, hdoes⟩ := hbody { cache, nextSlot := n₀ } rfl
  have hcode : t.code.toList = q.code 0 0 := hq.code
  have hsize : t.code.size + t.strings.size ≤ cost := (Nat.zero_add cost) ▸ hq.size
  have hentry := lowerEntry_eq hinfo hlocals hreturn hblock
  -- A return at the end changes neither the slots nor the strings.
  obtain ⟨u, hu, hucode, hustrings, huslots, husize⟩ : ∃ u, lowerEntry _ _ _ _ = .ok (returns, u) ∧
      (u.code.toList = q.code 0 0 ∧ (returns.isVoid = true → reachesEnd u.code = false) ∨
        u.code.toList = q.code 0 0 ++ [{ op := .returnVoid }]) ∧
      u.strings = t.strings ∧ slotCount u.code = slotCount t.code ∧ u.code.size ≤ t.code.size + 1 := by
    refine ⟨_, hentry, ?_⟩
    split
    case isTrue hend =>
      refine ⟨.inr ?_, rfl, slotCount_push, Nat.le_of_eq (Array.size_push ..)⟩
      rw [← hcode]
      exact Array.toList_push
    case isFalse hend => exact ⟨.inl ⟨hcode, fun hvoid => by simpa [hvoid] using hend⟩, rfl, rfl, Nat.le_succ _⟩
  have hustrings' : u.strings.size < capacity := by rw [hustrings]; omega
  refine ⟨_, lowered_eq hu (by omega) hustrings', fun hmax args r hanswers => ?_, fun hmax hn args limit => ?_⟩
  · have hupper : slotCount t.code ≤ n := hq.next ▸ slotCount_block hblock rfl hslots rfl (hq.next.symm ▸ hmax)
    have hlower := Nat.le_trans htop (top_le_slotCount hq (Nat.le_trans hmax (by decide)) (Nat.le_trans hupper hmax))
    have hstart : Starts n args (loweredEnv ⟨h.entry parameters body, returns, u⟩ args)
        (loweredStart ⟨h.entry parameters body, returns, u⟩) := by
      refine ⟨⟨?_, ?_⟩, rfl, rfl, rfl⟩ <;> rw [loweredStart, Array.size_replicate, huslots]
      · exact hlower
      · exact Nat.le_trans hupper hmax
    have hleads := hdoes (loweredEnv ⟨h.entry parameters body, returns, u⟩ args) hustrings' (hustrings ▸ List.prefix_rfl)
    have hcount : slotCount u.code ≤ maxSlots := huslots ▸ Nat.le_trans hupper hmax
    have hsmall : u.code.size < 2 ^ 64 := Nat.lt_trans (by omega : u.code.size < capacity) (by decide)
    rcases hanswers _ _ hstart with hhalt | ⟨hvoid, m, hnext, rfl⟩
    · obtain ⟨tail, htail⟩ : ∃ tail, u.code.toList = q.code 0 0 ++ tail := by
        rcases hucode with ⟨hcode, -⟩ | hcode
        · exact ⟨[], hcode.trans (List.append_nil _).symm⟩
        · exact ⟨_, hcode⟩
      exact endsWith_of_halt (hleads _ _ hhalt) htail hsmall hcount
    · exact endsWith_of_next (hleads _ _ hnext) (hucode.imp_left fun h => ⟨h.1, h.2 hvoid⟩) hsmall hcount
  · refine ⟨slotCount u.code, ?_⟩
    refine (run_codeModule ..).trans (if_pos ?_)
    refine huslots ▸ Nat.lt_of_not_le fun hfew => ?_
    have hlower := Nat.le_trans htop (top_le_slotCount hq hn hfew)
    omega

/-- If the body of an entry is built, the entry is lowered, and what its code does decides what runs give. -/
theorem lowered_of_builds (hmax : n ≤ maxSlots) :
    ∃ l, (h.program parameters body).lowered "/main" h.defaults h.entryDefaults = .ok l ∧ ∀ args r,
      (∀ env m, Starts n args env m → R.Answers returns.isVoid env m r) → EndsWith l.codeModule args r := by
  obtain ⟨l, hlowered, hruns, -⟩ := lowered_of_builds_any hinfo hlocals hslots hreturn hbody hcost htop
  exact ⟨l, hlowered, hruns hmax⟩

end

/-! ### Checking -/

theorem ofInfer_of_run {α : Type} {i : Infer α} {a : α} {cache : ReturnCache}
    (h : i.run cache = some (.ok a, cache')) : Check.Checking.ofInfer i cache = .ok (a, cache') := by
  refine bind_eq_ok.mpr ⟨.ok a, cache', ?_, rfl⟩
  have h' : i cache = some (.ok a, cache') := h
  simp only [Check.Checking.ofRecall, ExceptT.run, h']

def checkContext (h : Heading) (parameters body : List Expr) (returns : ReturnInfo) : Check.Context :=
  { scope := h.scope parameters body
    inferrer := .atDepth (h.scope parameters body) (h.program parameters body).depth
    home := "/main", effects := h.effects, returns, templates := [] }

/-- If the body of an entry passes the check, the program does. -/
theorem check_ok {env : Check.Env}
    (hentry : Check.checkEntry (h.scope parameters body) (h.entry parameters body) = .ok ())
    (hinfo : (Check.returnInfo (h.scope parameters body) (.atDepth (h.scope parameters body)
      (h.program parameters body).depth) [] (h.entry parameters body)).run [] = some (.ok returns, cache))
    (hdeclare : ∀ s : Check.Setting, s.depth = (h.program parameters body).depth →
      s.declare (h.checkContext parameters body returns) "/main" [] parameters cache = .ok (env, cache))
    (hbody : (Check.Checker.atDepth (h.program parameters body).depth).block (h.checkContext parameters body returns) env body
      cache = .ok ((), cache')) (hpaths : returns.isVoid = true ∨ Returns.blockAlways body = true) :
    (h.program parameters body).check "/main" h.defaults h.entryDefaults = .ok () := by
  obtain ⟨entryDefaults, hentryDefaults, hactive⟩ := except_bind_eq_ok.mp h.active
  refine except_bind_eq_ok.mpr ⟨h.scope parameters body, rfl, except_bind_eq_ok.mpr ⟨h.inherited, h.known,
    except_bind_eq_ok.mpr ⟨entryDefaults, hentryDefaults, ?_⟩⟩⟩
  have hget : (h.scope parameters body).get? "/main" = some (h.entry parameters body) := rfl
  simp only [hget]
  refine except_bind_eq_ok.mpr ⟨(), hentry, ?_⟩
  let s : Check.Setting :=
    { scope := h.scope parameters body, depth := (h.program parameters body).depth, entry := "/main"
      defaults := h.inherited, entryDefaults }
  have hstruct : (h.entry parameters body).isStruct = false := h.notStruct
  have hdefinition : s.checkDefinition (h.entry parameters body) [] = .ok ((), cache') := by
    refine lift_bind_eq_ok.mpr ⟨h.effects, hactive, bind_eq_ok.mpr ⟨returns, cache, ofInfer_of_run hinfo, ?_⟩⟩
    simp only [hstruct]
    refine bind_eq_ok.mpr ⟨env, cache, hdeclare s rfl, bind_eq_ok.mpr ⟨(), cache', hbody, ?_⟩⟩
    rcases hpaths with hvoid | halways
    · rw [hvoid]
      rfl
    · have hok : Check.Setting.checkPaths "/main" body = .ok () := by rw [Check.Setting.checkPaths, if_pos halways]
      split
      · exact lift_eq_ok.mpr ⟨hok, rfl⟩
      · rfl
  have hall : (do
      [h.entry parameters body].forM s.checkDefinition
      ([] : List Execution).forM s.checkExecution : Check.Checking Unit) [] = .ok ((), cache') :=
    bind_eq_ok.mpr ⟨(), cache', bind_eq_ok.mpr ⟨(), cache', hdefinition, rfl⟩, rfl⟩
  exact except_bind_eq_ok.mpr ⟨_, hall, rfl⟩

theorem compile_ok {l : Lowered} (hcheck : (h.program parameters body).check "/main" h.defaults h.entryDefaults = .ok ())
    (hlowered : (h.program parameters body).lowered "/main" h.defaults h.entryDefaults = .ok l) :
    (h.program parameters body).compile h.options = .ok l.codeModule := by
  refine except_bind_eq_ok.mpr ⟨(), hcheck, ?_⟩
  show (h.program parameters body).lower "/main" h.defaults h.entryDefaults = _
  rw [Program.lower, hlowered]
  rfl

end Heading

/-! ### Literals -/

def Source.Scalar.literal : Source.Scalar → Int → Expr
  | .i32, n => .int32 (.ofInt n)
  | .i64, n => .int64 (.ofInt n)
  | .u64, n => .uint64 (.ofInt n)
  | .bool, n => .bool (n != 0)

namespace Lower
open Source (Scalar word)

variable {env : Check.Env} {locals : Locals}

section
variable (T : Scalar) (v : Int) {depth : Nat} {scope : Scope} {site : Site}

theorem check_literal {ctx : Check.Context} :
    (Check.Checker.atDepth (depth + 1)).expr ctx env (T.literal v) = pure (.value T.kind) := by
  cases T <;> rfl

theorem inferred_literal :
    (Check.Inferrer.atDepth scope (depth + 1)).operand site env (T.literal v) = pure (.value T.kind) := by
  cases T <;> rfl

theorem told_literal :
    (Inferrer.atDepth scope (depth + 1)).operand site locals (T.literal v) = pure (.value T.kind) := by
  cases T <;> rfl

theorem operand_literal {ctx : Context} (h : ctx.inferrer = .atDepth scope (depth + 1)) :
    ctx.operand locals (T.literal v) = pure (.value T.kind) := by
  rw [Context.operand, h, told_literal]
  rfl

/-- No instruction converts between these kinds. -/
theorem coerce_scalars (W : Scalar) : coerce T.kind W.width.kind = pure () := by cases T <;> cases W <;> rfl

variable {T v} {n : Nat} {ctx : Context} {locals : Locals}

theorem builds_literalValue {l : Literal} {op : Opcode} {imm : UInt64} {g : UInt64 → Word}
    (hl : literalPush l = .ok { op, imm }) (plain : op.isJump = false) (hop : op.operation = .push g) :
    Builds n (emitLiteralValue l) (.value (Kind.ofLiteral l)) n 0 1 (.pushes fun _ => g imm) := by
  exact .lift hl (.map (g := fun _ => _) (builds_push plain hop))

/-- A literal pushes its number. -/
theorem builds_literal (hv : T.Holds v) :
    Builds n ((Emitter.atDepth (depth + 1)).expr ctx locals (T.literal v)) (.value T.kind) n 0 1
      (.pushes fun _ => word v) := by
  cases T with
  | i32 =>
    have hrange : (Int32.ofInt v).toInt64.toInt32.toInt64 = (Int32.ofInt v).toInt64 := by simp
    have hword := Source.word_of_inRange hrange
    rw [Int32.toInt_toInt64, Source.toInt_ofInt32 hv] at hword
    have hpush : literalPush (.int (Int32.ofInt v).toInt64 .i32) = .ok { op := .pushI32, imm := _ } := if_pos hrange
    rw [← hword]
    exact builds_literalValue hpush rfl rfl
  | i64 =>
    have hword := Source.word_toInt (.ofInt v)
    rw [Source.toInt_ofInt64 hv] at hword
    have hpush : literalPush (.int (.ofInt v) .i64) = .ok { op := .pushI64, imm := _ } := rfl
    rw [hword]
    exact builds_literalValue hpush rfl rfl
  | u64 =>
    have hpush : literalPush (.uint (.ofInt v)) = .ok { op := .pushI64, imm := _ } := rfl
    exact builds_literalValue hpush rfl rfl
  | bool =>
    have hpush : literalPush (.bool (v != 0)) = .ok { op := .pushI32, imm := _ } := rfl
    have hbuilds : Builds n (emitLiteralValue (.bool (v != 0))) _ n 0 1 _ := builds_literalValue hpush rfl rfl
    rcases hv with rfl | rfl <;> exact hbuilds

/-- A literal pushes its number at every width. -/
theorem builds_coerce (A B : Scalar) : Builds n (coerce A.kind B.width.kind) () n 0 0 .skips := by
  rw [coerce_scalars]
  exact .pure

theorem builds_literalAt {W : Scalar} (hv : T.Holds v) :
    Builds n ((Emitter.atDepth (depth + 1)).exprAt ctx locals (T.literal v) W.width) () n 0 1 (.pushes fun _ => word v) := by
  refine Builds.mono (.bind (builds_literal hv) (builds_coerce T W)) rfl (Nat.zero_le _) (Nat.le_refl _) ?_
  rintro env m f rfl
  exact .next rfl rfl

end
end Lower

/-! ### Entries that return a value -/

namespace Lower
open Stateful Machine
open Source (Scalar)

/-- With the given effects and without bindings, an expression passes the check as a value of a kind, it is inferred to be
    one, and it is built. -/
structure Evaluates (effects : EffectSet) (e : Expr) (T : Scalar) (n top cost : Nat) (R : Behaviour) : Prop where
  checked : ∀ (depth : Nat) (ctx : Check.Context) (cache : ReturnCache), ctx.effects = effects → ctx.templates = [] →
    (Check.Checker.atDepth (depth + 3)).expr ctx [] e cache = .ok (.value T.kind, cache)
  inferred : ∀ (scope : Scope) (depth : Nat) (site : Site) (cache : ReturnCache),
    (Check.Inferrer.atDepth scope (depth + 3)).operand site [] e cache = some (.value T.kind, cache)
  told : ∀ (scope : Scope) (depth : Nat) (site : Site) (cache : ReturnCache),
    ((Inferrer.atDepth scope (depth + 3)).operand site [] e).run cache = some (.ok (.value T.kind), cache)
  built : ∀ (depth : Nat) (ctx : Context), ctx.effects = effects →
    (∃ scope depth', ctx.inferrer = .atDepth scope (depth' + 3)) →
    Builds 0 ((Emitter.atDepth (depth + 3)).expr ctx [] e) (.value T.kind) n top cost R

end Lower

/-- The header declares no result, or one of a kind that takes values of the given kind. -/
def Heading.Returns (h : Heading) (T : Source.Scalar) : Prop :=
  h.returns? = none ∨ ∃ D : Source.Scalar, h.returns? = some (.value D.kind) ∧ D.kind.accepts T.kind = true

namespace Heading
open Lower Stateful Machine
open Source (Scalar)
variable {h : Heading} {e : Expr} {body : List Expr} {T D : Scalar} {n top cost : Nat} {R : Behaviour}

variable {env : Env} {m : Machine.State} {depth : Nat}

theorem checked_ret {ctx : Check.Context} {env : Check.Env} {cache : ReturnCache}
    (he : (Check.Checker.atDepth (depth + 3)).expr ctx env e cache = .ok (.value T.kind, cache))
    (hD : ctx.returns = .value D.kind) (haccepts : D.kind.accepts T.kind = true) :
    (Check.Checker.atDepth (depth + 4)).block ctx env [.ret e] cache = .ok ((), cache) := by
  have hreturn : Check.checkReturn (.atDepth (depth + 3)) ctx env (some e) cache = .ok ((), cache) := by
    have hvoid : ¬(ctx.returns.isVoid = true) := by rw [hD]; exact Bool.false_ne_true
    unfold Check.checkReturn
    refine check_eq_ok.mpr ⟨hvoid, bind_eq_ok.mpr ⟨_, cache, he, ?_⟩⟩
    rw [hD]
    show (if (false || !D.kind.accepts T.kind) = true then _ else _ : Check.Checking Unit) cache = _
    rw [haccepts]
    rfl
  have hstatement : (Check.Checker.atDepth (depth + 4)).statement ctx env (.ret e) cache = .ok (env, cache) := by
    show (Check.checkReturn (.atDepth (depth + 3)) ctx env (some e) >>= fun _ => pure env) cache = _
    exact bind_eq_ok.mpr ⟨(), cache, hreturn, rfl⟩
  exact bind_eq_ok.mpr ⟨env, cache, bind_eq_ok.mpr ⟨env, cache, hstatement, rfl⟩, rfl⟩

theorem recall_bind {α β : Type} {m : Recall α} {f : α → Recall β} {a : α} {b : β} {c c' c'' : ReturnCache}
    (hm : m c = some (a, c')) (hf : f a c' = some (b, c'')) : (m >>= f) c = some (b, c'') := by
  show (m c >>= fun r => f r.1 r.2) = _
  rw [hm]
  exact hf

/-- What the entry returns: what its header declares, or what is inferred. -/
theorem returnInfo_entry {i : List String → Definition → Recall Kind} (hvalue : Returns.containsValue body = true)
    (hi : i ["/main"] (h.entry [] body) [] = some (T.kind, []))
    (hD : h.returns? = none ∧ D = T ∨ h.returns? = some (.value D.kind)) :
    ((h.entry [] body).returnInfo i []).run [] = some (.ok (.value D.kind), [("/main", .value D.kind)]) := by
  have hstruct : (h.entry [] body).isStruct = false := h.notStruct
  have hdeclared : ReturnInfo.declared? (h.entry [] body) = .ok h.returns? := h.declared
  have hreturns : Returns.containsValue (h.entry [] body).body = true := hvalue
  refine run_bind_eq_ok.mpr ⟨[], [], rfl, ?_⟩
  refine run_bind_eq_ok.mpr ⟨h.returns?, [], run_lift_eq_ok.mpr ⟨hdeclared, rfl⟩, ?_⟩
  rcases hD with ⟨hnone, rfl⟩ | hsome
  · rw [hnone, hstruct, hreturns]
    have hlift : (liftM (i ["/main"] (h.entry [] body)) : Infer Kind).run [] = some (.ok D.kind, []) := by
      show (i ["/main"] (h.entry [] body) [] >>= fun r => some (Except.ok r.1, r.2)) = _
      rw [hi]
      rfl
    exact run_bind_eq_ok.mpr ⟨D.kind, [], hlift, rfl⟩
  · rw [hsome]
    rfl

theorem inferred_return (scope : Scope) (he : Evaluates h.effects e T n top cost R) :
    Check.inferResult scope (.atDepth scope (depth + 4)) ["/main"] (h.entry [] [.ret e]) [] = some (T.kind, []) := by
  have hfirst : (Check.Inferrer.atDepth scope (depth + 4)).firstReturn { home := "/main", busy := ["/main"] } [] [.ret e] [] =
      some (some T.kind, []) := recall_bind (he.inferred scope depth _ []) rfl
  exact recall_bind rfl (recall_bind hfirst rfl)

theorem told_return (scope : Scope) (he : Evaluates h.effects e T n top cost R) :
    Lower.inferResult scope (.atDepth scope (depth + 4)) ["/main"] (h.entry [] [.ret e]) [] = some (T.kind, []) := by
  have hfirst : (Inferrer.atDepth scope (depth + 4)).firstReturn { home := "/main", busy := ["/main"] } [] [.ret e] [] =
      some (some T.kind, []) := recall_bind (he.told scope depth _ []) rfl
  exact recall_bind rfl (recall_bind hfirst rfl)

theorem builds_ret {n₀ : Nat} {ctx : Lower.Context} {locals : Locals}
    (he : Builds n₀ ((Emitter.atDepth (depth + 3)).expr ctx locals e) (.value T.kind) n top cost R)
    (htarget : ctx.target = .run (.value D.kind)) (haccepts : D.kind.accepts T.kind = true) :
    Builds n₀ ((Emitter.atDepth (depth + 4)).block ctx locals [.ret e]) () n top (cost + 1) (.AndThen R .returns) := by
  have hreturn : Builds n₀ (lowerReturn (.atDepth (depth + 3)) ctx locals (some e)) () n (max top 0) (cost + 1)
      (.AndThen R .returns) := by
    unfold lowerReturn returnFromRun
    rw [htarget]
    refine .check Bool.false_ne_true (.bind he ?_)
    cases T <;> cases D <;> cases haccepts <;> exact Lower.builds_return rfl rfl
  have hstatement : Builds n₀ ((Emitter.atDepth (depth + 4)).statement ctx locals (.ret e)) locals n _ _ _ :=
    .map (g := fun _ => locals) hreturn
  have hblock : Builds n₀ ((Emitter.atDepth (depth + 4)).block ctx locals [.ret e]) () n _ _ _ :=
    .map (g := fun _ => ()) (.map (g := id) hstatement)
  exact hblock.mono rfl (Nat.le_max_left ..) (Nat.le_refl _) fun _ _ _ => id

theorem returned_of_next {m' : Machine.State} {w : Word} {rest : List Word} (hR : R env m (.next m'))
    (hstack : m'.stack = w :: rest) (houtput : m'.output = {}) :
    (R.AndThen .returns) env m (.halt (.ok (.returned w))) :=
  .next hR ⟨w, rest, hstack, by rw [houtput, Result.returned]⟩

theorem reported_of_failed {message : String} (hR : R env m (.halt (.ok (m.output.failed message))))
    (houtput : m.output = {}) : (R.AndThen .returns) env m (.halt (.ok (.reported message))) := by
  rw [houtput, failed_eq_reported] at hR
  exact .stop hR trivial

/-- With the header, a body passes the check, it is inferred to return a value of a kind, and it is built. -/
structure Body (h : Heading) (body : List Expr) (T : Scalar) (n top cost : Nat) (R : Behaviour) : Prop where
  containsValue : Returns.containsValue body = true
  contains : Returns.contains body = true
  always : Returns.blockAlways body = true
  inferred : Check.inferResult (h.scope [] body) (.atDepth (h.scope [] body) (h.program [] body).depth) ["/main"]
    (h.entry [] body) [] = some (T.kind, [])
  told : Lower.inferResult (h.scope [] body) (.atDepth (h.scope [] body) (h.program [] body).depth) ["/main"]
    (h.entry [] body) [] = some (T.kind, [])
  checked : ∀ (D : Scalar) (cache : ReturnCache), D.kind.accepts T.kind = true →
    (Check.Checker.atDepth (h.program [] body).depth).block (h.checkContext [] body (.value D.kind)) [] body cache =
      .ok ((), cache)
  built : ∀ D : Scalar, D.kind.accepts T.kind = true →
    Builds 0 ((Emitter.atDepth (h.program [] body).depth).block (h.context [] body (.value D.kind)) [] body) () n top cost R

/-- A program whose body returns a value is compiled. What the code of the body does decides what runs give, unless it has
    more slots than a run may have. -/
theorem Body.compile (hb : h.Body body T n top cost R) (hT : h.Returns T) (hcost : cost + 1 < capacity) (htop : n ≤ top) :
    ∃ m, (h.program [] body).compile h.options = .ok m ∧
      (n ≤ maxSlots → ∀ args r, (∀ env m, Starts n args env m → R env m (.halt (.ok r))) → EndsWith m args r) ∧
      (maxSlots < n → n ≤ 2 ^ 64 → ∀ args limit, ∃ count, run m args limit = .error (.tooManySlots count)) := by
  obtain ⟨D, haccepts, hD⟩ : ∃ D : Scalar, D.kind.accepts T.kind = true ∧
      (h.returns? = none ∧ D = T ∨ h.returns? = some (.value D.kind)) := by
    rcases hT with hnone | ⟨D, hD, haccepts⟩
    · exact ⟨T, by cases T <;> rfl, .inl ⟨hnone, rfl⟩⟩
    · exact ⟨D, haccepts, .inr hD⟩
  have hcheck : (h.program [] body).check "/main" h.defaults h.entryDefaults = .ok () :=
    check_ok rfl (returnInfo_entry hb.containsValue hb.inferred hD) (fun _ _ => rfl) (hb.checked D _ haccepts)
      (.inr hb.always)
  obtain ⟨l, hlowered, hruns, hcrowded⟩ := lowered_of_builds_any (returnInfo_entry hb.containsValue hb.told hD) rfl (by simp)
    (.inr hb.contains) (hb.built D haccepts) hcost htop
  exact ⟨_, compile_ok hcheck hlowered,
    fun hmax args r hanswers => hruns hmax args r fun env m hm => .inl (hanswers env m hm), hcrowded⟩

theorem body_return (he : Evaluates h.effects e T n top cost R) :
    h.Body [.ret e] T n top (cost + 1) (.AndThen R .returns) := by
  obtain ⟨depth, hdepth⟩ : ∃ depth, (h.program [] [.ret e]).depth = depth + 4 := ⟨_, rfl⟩
  constructor
  case containsValue | contains | always => rfl
  case inferred => exact hdepth ▸ inferred_return (h.scope [] [.ret e]) he
  case told => exact hdepth ▸ told_return (h.scope [] [.ret e]) he
  case checked =>
    intro D cache haccepts
    rw [hdepth]
    exact checked_ret (he.checked depth _ cache rfl rfl) rfl haccepts
  case built =>
    intro D haccepts
    rw [hdepth]
    exact builds_ret (he.built depth _ rfl ⟨_, depth + 1, by rw [← hdepth]; rfl⟩) rfl haccepts

/-- A program that returns the value of an expression is compiled, and its runs end with what the code of the expression
    leaves. -/
theorem compile_return (he : Evaluates h.effects e T n top cost R) (hT : h.Returns T) (hcost : cost + 2 < capacity)
    (htop : n ≤ top) (hmax : n ≤ maxSlots) :
    ∃ m, (h.program [] [.ret e]).compile h.options = .ok m ∧ ∀ args r,
      (∀ env m, Starts n args env m → (R.AndThen .returns) env m (.halt (.ok r))) → EndsWith m args r := by
  obtain ⟨m, hcompile, hruns, -⟩ := (body_return he).compile hT (by omega) htop
  exact ⟨m, hcompile, hruns hmax⟩

end Heading
end FlatCode
