import FlatCode.Program.Build
import FlatCode.Proofs.Safety
import FlatCode.Proofs.Source.Statements

/-! Lowered programs of the fragment are correct. A run of the module gives what a direct evaluation of the body of the
    entry gives: for every limit that suffices the same ending, and for an evaluation without end no limit suffices. -/

namespace FlatCode.Source
open Lower Stateful
open Machine (exec run runFrom slotCount maxSlots loweredEnv loweredStart)

/-- The slots that a piece stores to are counted. -/
theorem Fills.le_slotCount {code : Array Instruction} {p : Piece} {next target k : Nat} (h : Fills 0 next p)
    (hcode : code.toList = p.code target k) (hmax : slotCount code ≤ maxSlots) : next ≤ slotCount code := by
  refine Nat.le_of_not_lt fun hlt => ?_
  have hmem := (h (slotCount code) (Nat.zero_le _) hlt).mem_code target k
  have hcounted := Machine.lt_slotCount hmax (hcode ▸ hmem) rfl
  rw [UInt64.toNat_ofNat_of_lt' (Nat.lt_of_le_of_lt hmax (by decide))] at hcounted
  exact Nat.lt_irrefl _ hcounted

theorem entry_eq {p : Program} {d d' : Definition} {scope : Scope} {entry : String} (hdefs : p.definitions = [d])
    (hscope : Scope.build p = .ok scope) (hd : scope.get? entry = some d') : d' = d := by
  have hdefinitions : scope.definitions = [d] := by
    rw [Scope.build] at hscope
    split at hscope
    · exact nomatch hscope
    · cases haliases : p.imports.foldlM (Scope.addImport p.definitions) [] with
      | error e =>
        rw [haliases] at hscope
        exact nomatch hscope
      | ok aliases =>
        rw [haliases] at hscope
        cases hscope
        exact hdefs
  have hat (path : String) (h : scope.at? path = some d') : d' = d := by
    rw [Scope.at?, hdefinitions] at h
    exact List.mem_singleton.mp (List.mem_of_find?_eq_some h)
  -- The entry is found by its path or through an import, and there is only one definition to find.
  rw [Scope.get?] at hd
  cases hfound : scope.at? entry with
  | some found =>
    rw [hfound] at hd
    cases hd
    exact hat entry hfound
  | none =>
    rw [hfound] at hd
    obtain ⟨path, -, hpath⟩ := Option.bind_eq_some_iff.mp hd
    exact hat path hpath

theorem returnInfo_declared {ctx : Context} {d : Definition} {info returns : ReturnInfo} {t : State}
    (hdeclared : ReturnInfo.declared? d = .ok (some info)) (h : ctx.returnInfo d {} = .ok (returns, t)) :
    returns = info ∧ ∃ cache, t = { cache } := by
  obtain ⟨cache, hrun, rfl⟩ := infer_inv h
  refine ⟨?_, cache, rfl⟩
  simp only [Lower.returnInfo, Definition.returnInfo, hdeclared] at hrun
  cases hrun
  rfl

section
variable {p : Program} {depth : Nat} {d : Definition} {T : Scalar} {entry : String}
  {defaults entryDefaults : List String} {l : Lowered} {body : List Stmt}

/-- The code of an entry of the fragment is that of a piece which does what its body means. -/
theorem lowered_closedCode (hdefs : p.definitions = [d]) (hparams : d.parameters = [])
    (hreturns : ReturnInfo.declared? d = .ok (some (.value T.kind))) (hbody : AreStmts T [] d.body body)
    (h : p.loweredTo depth entry defaults entryDefaults = .ok l) (env : Machine.Env) (fuel : Nat) :
    ∃ q, l.state.code.toList = q.code 0 0 ∧ (∀ x ∈ l.state.strings, x = failureText) ∧
      ClosedCode env (fuel + 1) 0 [] (inBlock (Stmt.runAll (fuel + 1) body)) l.state q := by
  obtain ⟨scope, defaults', effects, hscope, hentry, hrun, -, -⟩ := lowered_inv h
  obtain rfl := entry_eq hdefs hscope hentry
  obtain ⟨s₁, s₂, s₃, locals, hinfo, hlocals, hblock, hend⟩ := lowerEntry_inv hrun
  obtain ⟨hret, cache, rfl⟩ := returnInfo_declared hreturns hinfo
  -- Without parameters the body is lowered in an empty scope.
  rw [entryLocals, hparams] at hlocals
  obtain ⟨rfl, rfl⟩ := pure_eq_ok.mp hlocals
  rw [hret] at hend hblock
  obtain ⟨rfl, -⟩ : l.state = s₃ ∧ _ := hend.resolve_right fun h => nomatch h.1
  have hready : Ready env (fuel + 1) T (.atDepth depth)
      { entryContext depth scope l.entry entry defaults' effects with target := .run (.value T.kind) } [] [] 0 :=
    ⟨Emitter.sound_atDepth (Nat.succ_pos _) _, ⟨Inferrer.sound_atDepth T scope _, rfl⟩, .nil, List.forall_mem_nil _, .nil⟩
  obtain ⟨q, hext, hlater, hq⟩ := hready.block rfl hbody () _ hblock
  exact ⟨q, hext.code, fun x hx => (hlater.texts x hx).resolve_left (Array.not_mem_empty x), hq⟩

def Run.Answered (runs : Nat → Except Machine.Fault Machine.Result) (fuel : Nat) : Run Ending → Prop
  | .done e => ∃ steps, ∀ limit, runs limit = if limit < steps then .error .stepLimit else e.answer
  | .timeout => ∀ limit ≤ fuel, runs limit = .error .stepLimit
  | .stop _ | .stuck => False

theorem answered_of_count {runs : Nat → Except Machine.Fault Machine.Result} {fuel count : Nat} {e : Ending}
    (hless : ∀ n < count, runs n = .error .stepLimit) (hmore : ∀ n, runs (count + n) = e.answer) :
    (Run.done e).Answered runs fuel := by
  refine ⟨count, fun limit => ?_⟩
  split
  case isTrue hlt => exact hless limit hlt
  case isFalse hlt =>
    obtain ⟨n, rfl⟩ := Nat.exists_eq_add_of_le (Nat.not_lt.mp hlt)
    exact hmore n

theorem evaluate_answered {args : Array String} {fuel : Nat} {q : Piece} (hcode : l.state.code.toList = q.code 0 0)
    (htexts : ∀ x ∈ l.state.strings, x = failureText)
    (hq : ClosedCode (loweredEnv l args) (fuel + 1) 0 [] (inBlock (Stmt.runAll (fuel + 1) body)) l.state q)
    (hsize : l.state.code.size < 2 ^ 64) (hmax : slotCount l.state.code ≤ maxSlots) :
    (evaluate fuel body).Answered (fun limit => runFrom (loweredEnv l args) limit (loweredStart l)) fuel := by
  have hend : l.state.code.size = q.size := by rw [← Array.length_toList, hcode, Piece.length_code]
  have hslots : (loweredStart l).slots.size = slotCount l.state.code := Array.size_replicate
  have hfits : Fits (loweredEnv l args) (loweredStart l).slots.size l.state := by
    rw [hslots]
    exact ⟨List.prefix_rfl, htexts, hq.fills.le_slotCount hcode hmax, Nat.lt_of_le_of_lt hmax (by decide)⟩
  have hagrees := hq.does [] [] (loweredStart l).slots hfits .nil (loweredStart l) rfl rfl rfl
  have hruns : (exec (loweredEnv l args) (fuel + 1) q (loweredStart l)).Runs (loweredEnv l args)
      (Machine.region q 0 0) (0 + q.size) (fuel + 1) (loweredStart l) :=
    Machine.exec_runs q (fuel + 1) hsize (Nat.le_of_eq ((Nat.zero_add _).trans hend.symm)) (Nat.zero_le _)
      (.of_toList (hcode.trans (List.append_nil _).symm)) rfl
  rw [inBlock] at hagrees
  rw [evaluate]
  cases hrun : Stmt.runAll (fuel + 1) body [] with
  | done ρ =>
    rw [hrun] at hagrees
    obtain ⟨m, hexec, -, -⟩ := hagrees
    rw [hexec] at hruns
    -- The run has come to the end of the code, where there is no instruction.
    have hpc : m.pc = l.state.code.size := hruns.1.trans ((Nat.zero_add _).trans hend.symm)
    have hmissing (n : Nat) : runFrom (loweredEnv l args) n m = .error .missingReturn := by
      have hnone : (loweredEnv l args).code[m.pc]? = none := Array.getElem?_eq_none (Nat.le_of_eq hpc.symm)
      rw [runFrom, hnone]
    obtain ⟨count, hless, hmore⟩ := hruns.runFrom_next
    exact answered_of_count hless fun n => (hmore n).trans (hmissing n)
  | stop e =>
    rw [hrun] at hagrees
    change exec _ _ _ _ = .halt e.answer at hagrees
    rw [hagrees] at hruns
    obtain ⟨count, hless, hmore⟩ := hruns.runFrom_halt
    exact answered_of_count hless hmore
  | timeout =>
    rw [hrun] at hagrees
    change exec _ _ _ _ = .timeout at hagrees
    rw [hagrees] at hruns
    exact fun limit hle => hruns.runFrom_timeout (Nat.lt_succ_of_le hle)
  | stuck =>
    rw [hrun] at hagrees
    exact hagrees

/-- Lowering is correct on the fragment. For a program with one definition, an entry without parameters that declares its
    result and whose body belongs to the fragment, let its module use no more slots than a run has. Then the body has a
    meaning; if an evaluation of it ends, then with the same answer ends every run whose limit suffices, whatever the
    arguments; and if no evaluation ends, no limit suffices. -/
theorem run_lowered_eq_evaluate {m : CodeModule} (hdefs : p.definitions = [d]) (hparams : d.parameters = [])
    (hreturns : ReturnInfo.declared? d = .ok (some (.value T.kind))) (hbody : AreStmts T [] d.body body)
    (h : p.lower entry defaults entryDefaults = .ok m) (hslots : ∀ f ∈ m.functions, slotCount f.code ≤ maxSlots) :
    (∀ fuel, (∃ e, evaluate fuel body = .done e) ∨ evaluate fuel body = .timeout) ∧
      ∀ args : Array String,
        (∀ fuel e, evaluate fuel body = .done e →
          ∃ steps, ∀ limit, run m args limit = if limit < steps then .error .stepLimit else e.answer) ∧
        ((∀ fuel, evaluate fuel body = .timeout) → ∀ limit, run m args limit = .error .stepLimit) := by
  obtain ⟨depth, l, hl, rfl⟩ := loweredTo_of_lower h
  obtain ⟨-, -, -, -, -, -, hsize, -⟩ := lowered_inv hl
  have hmax : slotCount l.state.code ≤ maxSlots := hslots _ (List.mem_singleton_self _)
  have hanswered (args : Array String) (fuel : Nat) : (evaluate fuel body).Answered (run l.codeModule args) fuel := by
    obtain ⟨q, hcode, htexts, hq⟩ := lowered_closedCode hdefs hparams hreturns hbody hl (loweredEnv l args) fuel
    have hrun : run l.codeModule args = fun limit => runFrom (loweredEnv l args) limit (loweredStart l) := by
      funext limit
      rw [Machine.run_codeModule, if_neg (Nat.not_lt.mpr hmax)]
    rw [hrun]
    exact evaluate_answered hcode htexts hq (Nat.lt_trans hsize (by decide)) hmax
  refine ⟨fun fuel => ?_, fun args => ⟨fun fuel e he => ?_, fun htimeout limit => ?_⟩⟩
  · have hfuel := hanswered #[] fuel
    cases he : evaluate fuel body with
    | done e => exact .inl ⟨e, rfl⟩
    | timeout => exact .inr rfl
    | stop | stuck =>
      rw [he] at hfuel
      exact hfuel.elim
  · have hfuel := hanswered args fuel
    rw [he] at hfuel
    exact hfuel
  -- An evaluation that runs out of as much fuel as the limit is one that goes past the limit.
  · have hfuel := hanswered args limit
    rw [htimeout limit] at hfuel
    exact hfuel limit (Nat.le_refl _)

end

def tally : Program := {
  definitions := [{
    path := "/main"
    transforms := [{ name := "return", templateArgs := ["i64"] }]
    statements := [
      .binding "sum" ["mut"] (.int64 0),
      .forLoop (.binding "i" ["mut"] (.int64 1)) (.plainCall "less_equal" [.ident "i", .int64 4])
        (.plainCall "increment" [.ident "i"]) [
        .assign (.ident "sum") (.plainCall "plus" [.ident "sum",
          .ifElse (.plainCall "equal" [.ident "i", .int64 3]) [.plainCall "negate" [.ident "i"]]
            [.plainCall "multiply" [.int32 2, .ident "i"]]])],
      .whileLoop (.plainCall "and" [.plainCall "greater_than" [.ident "sum", .int64 5], .bool true]) [
        .plainCall "decrement" [.ident "sum"]],
      .ret (.plainCall "divide" [.int64 11, .ident "sum"])] }] }

def tallyBody : List Stmt := [
  .bind "sum" (.lit .i64 0),
  .forLoop (.bind "i" (.lit .i64 1)) none (.comparison .lessEqual (.name "i") (.lit .i64 4)) (.drop (.step .plus "i")) [
    .drop (.assign "sum" (.arithmetic .plus (.name "sum") (.ifElse (.comparison .equal (.name "i") (.lit .i64 3))
      (.value [] (.negate (.name "i"))) (.value [] (.arithmetic .multiply (.lit .i32 2) (.name "i"))))))],
  .whileLoop (.conjunction (.comparison .greater (.name "sum") (.lit .i64 5)) (.lit .bool 1)) [
    .drop (.step .minus "sum")],
  .ret (.arithmetic .divide (.lit .i64 11) (.name "sum"))]

theorem tally_inFragment : ∃ d, tally.definitions = [d] ∧ d.parameters = [] ∧
    ReturnInfo.declared? d = .ok (some (.value Scalar.i64.kind)) ∧ AreStmts .i64 [] d.body tallyBody := by
  refine ⟨_, rfl, rfl, by rfl, .cons (.bind rfl (by decide +kernel) rfl .int64) (.cons ?_ (.cons ?_ (.cons ?_ .nil)))⟩
  case refine_1 =>
    refine .control rfl rfl (.forLoop rfl rfl (.bind rfl (by decide +kernel) rfl .int64)
      (.term (.call rfl rfl (.comparison rfl .name .int64))) (.drop (.call rfl rfl (.step rfl)) rfl) (.cons ?_ .nil))
    refine .drop (.call rfl rfl (.assign rfl (.call rfl rfl (.arithmetic rfl .name ?_)) rfl rfl)) rfl
    refine .call rfl rfl (.ifElse rfl (.call rfl rfl (.comparison rfl .name .int64)) rfl rfl ?_ ?_)
    · exact .value .nil (.call rfl rfl (.negate rfl .name))
    · exact .value .nil (.call rfl rfl (.arithmetic rfl .int32 .name))
  case refine_2 =>
    refine .control rfl rfl (.whileLoop rfl rfl (.call rfl rfl (.conjunction rfl ?_ .bool)) (.cons ?_ .nil))
    · exact .call rfl rfl (.comparison rfl .name .int64)
    · exact .drop (.call rfl rfl (.step rfl)) rfl
  case refine_3 => exact .ret (.call rfl rfl rfl (.call rfl rfl (.arithmetic rfl .int64 .name)) rfl)

theorem tally_lowers : ((tally.lower "/main" [] []).toOption.any fun m =>
    m.functions.all fun f => decide (slotCount f.code ≤ maxSlots)) = true := by
  decide +kernel

/-- The tally is lowered, and every run of it with enough steps returns two, eleven divided by five. -/
theorem run_tally : ∃ m, tally.lower "/main" [] [] = .ok m ∧
    (∀ f ∈ m.functions, slotCount f.code ≤ maxSlots) ∧ evaluate 6 tallyBody = .done (.returned 2) ∧
      ∀ args, ∃ steps, ∀ limit,
        run m args limit = if limit < steps then .error .stepLimit else .ok { value := some 2, output := {} } := by
  have hok := tally_lowers
  obtain ⟨d, hdefs, hparams, hreturns, hbody⟩ := tally_inFragment
  have heval : evaluate 6 tallyBody = .done (.returned 2) := by rfl
  cases h : tally.lower "/main" [] [] with
  | error e =>
    rw [h] at hok
    exact nomatch hok
  | ok m =>
    rw [h] at hok
    have hslots : ∀ f ∈ m.functions, slotCount f.code ≤ maxSlots := fun f hf =>
      of_decide_eq_true (List.all_eq_true.mp hok f hf)
    have hcorrect := run_lowered_eq_evaluate hdefs hparams hreturns hbody h hslots
    exact ⟨m, rfl, hslots, heval, fun args => (hcorrect.2 args).1 6 (.returned 2) heval⟩

end FlatCode.Source
