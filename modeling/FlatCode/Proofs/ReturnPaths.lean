import FlatCode.Proofs.Acceptance.Checking
import FlatCode.Proofs.Leftovers

/-! Return paths are complete. A program that is checked, and whose check does not rest on a `repeat` that may not run,
    returns wherever it has to: no run of its entry comes to the end of the code without a return, and no run comes to
    the end of the body of a definition that returns a value other than by one of its `return`s. -/

namespace FlatCode.Machine
open Lower Stateful

/-! ### Slots of a piece of the code -/

variable {code : Array Instruction} {args : Array String} {d : Definition} {env : Env} {x : Expansion}
  {trace : List Nat} {d' k target : Nat} {p : Piece} {s t : State}

theorem Holds.mem {l : List Instruction} {i : Instruction} (h : Holds code k l) (hi : i ∈ l) : i ∈ code.toList := by
  obtain ⟨j, hj, rfl⟩ := List.getElem_of_mem hi
  have hcode : code[k + j]? = some l[j] := (h j hj).trans (List.getElem?_eq_getElem hj)
  exact Array.mem_toList_iff.mpr (Array.mem_of_getElem? hcode)

/-- A run has the slots that a piece of its code names. -/
theorem Holds.slotsBelow {j : Nat}
    (h : Holds code k (p.code target j)) (hmax : slotCount code ≤ maxSlots) : p.SlotsBelow (slotCount code) :=
  Piece.slotsBelow_of_code fun _ hi => lt_slotCount hmax (h.mem hi)

/-- A run through an expansion that is sure to leave ends with an exit of its body, or with one that stands in its
    arguments and leads to the same place. -/
theorem Placed.last_exit {n : Nat} {args body : Piece} {below : Option Nat}
    (h : Placed env.code n x d args body target below) (hsurely : Returns.listSurely d.body = true)
    (hsize : env.code.size < 2 ^ 64) (hslots : body.SlotsBelow s.slots.size)
    (hs : s.pc = x.start) (ht : t.pc = x.stop) (hsteps : Steps env x.start x.stop trace s t) :
    ∃ r, trace.getLast? = some r.position ∧ (r ∈ x.exits ∨ r ∈ args.exits x.start ∧ target = x.stop) := by
  have hstop := h.stop
  have hstop_le : x.start + (args.size + body.size) ≤ target := h.stands.stop_le
  obtain ⟨⟨hcode, hend, htarget⟩, hcode', -, hend'⟩ := h.stands.expansion
  have hruns := exec_runs args (trace.length + 1) hsize (Nat.le_trans hend htarget) htarget hcode hs
  rcases hruns.passes hsteps (Nat.le_of_eq ht.symm) (Nat.le_refl _) (by simp only [region]; omega)
    (Nat.lt_succ_self _) with
    ⟨u, front, more, hf, hpc, rfl, -, -, hmore⟩ | ⟨u, front, more, r, hr, hf, rfl, hmore⟩
  · have hruns' := exec_runs body (more.length + 1) hsize hend' hend' hcode' hpc
    rcases hruns'.passes hmore (Nat.le_of_eq ht.symm) (Nat.le_add_right ..) (Nat.le_of_eq hstop.symm)
      (Nat.lt_succ_self _) with
      ⟨v, _, _, hf', -⟩ | ⟨v, front', more', r, hr, -, rfl, hmore'⟩
    · -- The body has no way to its end.
      exact absurd hf' (h.departs hsurely env _ u v (size_of_next hf ▸ hslots) trivial)
    · obtain ⟨rfl, -⟩ := hmore'.stuck (Nat.le_of_eq hstop)
      exact ⟨r, by simp, .inl (h.exits ▸ hr)⟩
  · obtain ⟨rfl, rfl⟩ := hmore.stuck (by simp only [region]; omega)
    exact ⟨r, by simp, .inr ⟨hr, ht⟩⟩

/-! ### Results -/

/-- Where nothing is remembered, a definition is found to return what it may be said to return. -/
theorem gives_of_returnInfo {infer : List String → Definition → Recall Kind} {busy : List String} {info : ReturnInfo}
    {cache : ReturnCache} (h : (d.returnInfo infer busy).run [] = some (.ok info, cache)) : d.Gives info := by
  obtain ⟨_, _, hget, h₁⟩ := run_bind_eq_ok.mp h
  cases hget
  obtain ⟨declared, _, hlift, h₂⟩ := run_bind_eq_ok.mp h₁
  obtain ⟨hdeclared, rfl⟩ := run_lift_eq_ok.mp hlift
  cases declared with
  | some declared =>
    cases h₂
    simp [Definition.Gives, hdeclared]
  | none =>
    dsimp only at h₂
    split at h₂
    case isTrue hvoid =>
      cases h₂
      simp [Definition.Gives, hdeclared, hvoid]
    case isFalse hvalue =>
      have hgives (k : Kind) : d.Gives (.value k) := by simp [Definition.Gives, hdeclared, hvalue, ReturnInfo.value]
      split at h₂
      · obtain ⟨rfl, -⟩ := run_pure_eq_ok.mp h₂
        exact hgives _
      · obtain ⟨k, _, -, h₃⟩ := run_bind_eq_ok.mp h₂
        cases h₃
        exact hgives k

section
variable {p : Program} {depth : Nat} {entry : String} {defaults entryDefaults : List String} {l : Lowered}

theorem gives_of_lowered (h : p.loweredTo depth entry defaults entryDefaults = .ok l) : l.entry.Gives l.returns := by
  obtain ⟨scope, _, _, _, _, hrun, -⟩ := lowered_inv h
  obtain ⟨_, _, _, _, hreturns, -⟩ := lowerEntry_inv hrun
  unfold Context.returnInfo infer at hreturns
  split at hreturns
  case h_1 hinfo =>
    cases hreturns
    exact gives_of_returnInfo hinfo
  · exact nomatch hreturns
  · exact nomatch hreturns

/-- The body is sure to leave, if the check takes it to. -/
abbrev LeavesSurely (d : Definition) : Prop := Returns.blockAlways d.body = true → Returns.listSurely d.body = true

/-- What is checked to return a value leaves by a `return` on every path. -/
theorem surely_of_check (hcheck : p.check entry defaults entryDefaults = .ok ()) (hrepeat : LeavesSurely d)
    (hd : d ∈ p.definitions) (hstruct : d.isStruct = false) (hvalue : d.hasValue = true) :
    Returns.listSurely d.body = true := by
  obtain ⟨s, _, haccepts⟩ : ∃ s e, Check.AcceptsProgram False p entry defaults entryDefaults s e :=
    Check.accepts_of_check hcheck nofun
  exact hrepeat ((haccepts.definitions d hd).paths hstruct hvalue)

theorem size_loweredStart (l : Lowered) : (loweredStart l).slots.size = slotCount l.state.code := Array.size_replicate

def Reaches (l : Lowered) (args : Array String) (s : State) : Prop :=
  slotCount l.state.code ≤ maxSlots ∧
    ∃ trace, Steps (loweredEnv l args) 0 l.state.code.size trace (loweredStart l) s

theorem Reaches.size_slots (h : Reaches l args s) : s.slots.size = slotCount l.state.code := by
  obtain ⟨-, trace, hsteps⟩ := h
  exact hsteps.size_slots.trans (size_loweredStart l)

/-- No run of an entry that leaves on every path comes to the end of the code without a return. -/
theorem ne_missingReturn {q : Piece} (hq : l.Laid q) (hsize : l.state.code.size < 2 ^ 64)
    (hdeparts : l.returns.isVoid = false → q.Departs) (args : Array String) (limit : Nat) :
    run l.codeModule args limit ≠ .error .missingReturn := by
  intro h
  have hallowed := isAllowed_of_run hq hsize h
  -- A void entry has a return at its end.
  cases hvoid : l.returns.isVoid with
  | true => rw [hvoid] at hallowed; exact nomatch hallowed
  | false =>
    rw [run_codeModule] at h
    split at h
    · exact nomatch h
    case isFalse hmax =>
      obtain ⟨tail, hcode⟩ := hq.code_append
      rcases runFrom_balanced (loweredEnv l args) (s := loweredStart l) hq.balanced hcode hsize rfl limit with
        ⟨r, hr⟩ | ⟨f, hf, hdata⟩ | ⟨trace, t, limit', hexec, -⟩
      · exact nomatch h.symm.trans hr
      · cases h.symm.trans hf
        exact hdata.elim nofun nofun
      · have hslots : q.SlotsBelow (loweredStart l).slots.size :=
          (size_loweredStart l).symm ▸ (Holds.of_toList hcode).slotsBelow (Nat.le_of_not_lt hmax)
        exact hdeparts hvoid _ _ _ _ hslots trivial hexec

/-- The end of the body of a definition that returns a value is reached by a `return` only: one of its own, or one of a
    body around it that stands among its arguments and leads to the same place. -/
theorem last_exit_of_lowered (h : p.loweredTo depth entry defaults entryDefaults = .ok l) (hx : x ∈ l.state.expansions)
    (hd : d ∈ p.definitions) (hdistinct : Definition.Distinct p.definitions) (hpath : d.path = x.callee)
    (hsurely : Returns.listSurely d.body = true) (hs : Reaches l args s) (hstart : s.pc = x.start)
    (hsteps : Steps (loweredEnv l args) x.start x.stop trace s t) (hstop : t.pc = x.stop) :
    ∃ r, trace.getLast? = some r.position ∧ (r ∈ x.exits ∨
      ∃ y ∈ l.state.expansions, y.stop = x.stop ∧ r ∈ y.exits ∧ ∀ r' ∈ x.exits, r.position < r'.position) := by
  obtain ⟨-, -, -, -, -, -, hcapacity, -⟩ := lowered_inv h
  obtain ⟨d', hd', pa, pb, target, below, hplaced, -, -, hexits⟩ := placed_of_lowered h hx
  cases hdistinct d' hd' d hd (hplaced.path.trans hpath.symm)
  have hslots : pb.SlotsBelow s.slots.size := hs.size_slots.symm ▸ hplaced.stands.expansion.2.holds.slotsBelow hs.1
  have hplaced' : Placed (loweredEnv l args).code _ x d pa pb target below := hplaced
  obtain ⟨r, hlast, hr⟩ := hplaced'.last_exit hsurely (Nat.lt_trans hcapacity (by decide)) hslots hstart hstop hsteps
  refine ⟨r, hlast, hr.imp_right fun ⟨hr, htarget⟩ => ?_⟩
  obtain ⟨y, hy, hystop, hry⟩ := hexits r hr
  refine ⟨y, hy, hystop.trans htarget, hry, fun r' hr' => ?_⟩
  rw [hplaced.exits] at hr'
  exact Nat.lt_of_lt_of_le (exits_bounds hr).2 (exits_bounds hr').1

/-- Return paths are complete. For every program that is checked and lowered, every list of arguments and every limit:
    unless the entry is a struct, or gives a value and is not sure to leave where the check takes it to, no run ends for
    want of a return; and no run that enters the expansion of a definition that returns a value, and is sure to leave where
    the check takes it to, comes to its end other than by a `return`. It is one of the body, or one of a body around it that
    stands among the arguments. -/
theorem complete_return_paths (hcheck : p.check entry defaults entryDefaults = .ok ())
    (hlower : p.loweredTo depth entry defaults entryDefaults = .ok l) (args : Array String) :
    (l.entry.isStruct = false → (l.entry.hasValue = true → LeavesSurely l.entry) →
        ∀ limit, run l.codeModule args limit ≠ .error .missingReturn) ∧
      ∀ x ∈ l.state.expansions, ∀ d ∈ p.definitions, d.path = x.callee → d.isStruct = false → d.hasValue = true →
        LeavesSurely d → ∀ trace s t, Reaches l args s → s.pc = x.start →
          Steps (loweredEnv l args) x.start x.stop trace s t → t.pc = x.stop →
            ∃ r, trace.getLast? = some r.position ∧ (r ∈ x.exits ∨
              ∃ y ∈ l.state.expansions, y.stop = x.stop ∧ r ∈ y.exits ∧ ∀ r' ∈ x.exits, r.position < r'.position) := by
  obtain ⟨scope, _, _, hscope, hget, -, hcapacity, -⟩ := lowered_inv hlower
  have hdefinitions := Scope.definitions_of_build hscope
  have hentry : l.entry ∈ p.definitions := hdefinitions ▸ Scope.mem_of_get? hget
  constructor
  · intro hstruct hrepeat limit
    obtain ⟨q, hq, -, hdeparts⟩ := piece_of_lowered hlower
    refine ne_missingReturn hq (Nat.lt_trans hcapacity (by decide)) (fun hvoid => hdeparts ?_) args limit
    have hvalue : l.entry.hasValue = true := by simpa [(gives_of_lowered hlower).isVoid] using hvoid
    exact surely_of_check hcheck (hrepeat hvalue) hentry hstruct hvalue
  · intro x hx d hd hpath hstruct hvalue hrepeat trace s t hs hstart hsteps hstop
    have hsurely := surely_of_check hcheck hrepeat hd hstruct hvalue
    exact last_exit_of_lowered hlower hx hd (hdefinitions ▸ Scope.distinct_of_build hscope) hpath hsurely hs hstart hsteps
      hstop

end

/-! ### A body that leaves from a loop -/

def picker : Definition := {
  path := "/pick"
  transforms := [{ name := "return", templateArgs := ["i32"] }]
  statements := [.repeatLoop (.int32 1) [.ifElse (.bool true) [.ret (.int32 7)] [.ret (.int32 8)]]] }

def picking : Program := {
  definitions := [picker, {
    path := "/main"
    transforms := [{ name := "return", templateArgs := ["i32"] }]
    result := some (.plainCall "pick" []) }] }

/-- The code of the program: the expansion stands between positions 0 and 22, and its first `return` at 12. -/
def pickingCode : Array Instruction := #[
  { op := .pushI32 }, { op := .storeLocal }, { op := .pushI32, imm := 1 }, { op := .storeLocal, imm := 1 },
  { op := .loadLocal, imm := 1 }, { op := .pushI32 }, { op := .cmpGtI32 }, { op := .jumpIfZero, imm := 22 },
  { op := .pushI32, imm := 1 }, { op := .jumpIfZero, imm := 14 }, { op := .pushI32, imm := 7 }, { op := .storeLocal },
  { op := .jump, imm := 22 }, { op := .jump, imm := 17 }, { op := .pushI32, imm := 8 }, { op := .storeLocal },
  { op := .jump, imm := 22 }, { op := .loadLocal, imm := 1 }, { op := .pushI32, imm := 1 }, { op := .subI32 },
  { op := .storeLocal, imm := 1 }, { op := .jump, imm := 4 }, { op := .loadLocal }, { op := .returnI32 }]

def pickingExpansion : Expansion :=
  { callee := "/pick", start := 0, stop := 22, exits := [{ position := 16, waiting := 0 }, { position := 12, waiting := 0 }] }

theorem picking_checks : picking.check "/main" [] [] = .ok () :=
  except_eq_ok_of_toOption (by decide +kernel)

theorem picking_lowers : (picking.lowered "/main" [] []).toOption.map
    (fun l => (l.entry.isStruct, decide (LeavesSurely l.entry), l.state.code, l.state.expansions)) =
      some (false, true, pickingCode, [pickingExpansion]) := by
  decide +kernel

theorem picking_lowered : ∃ l, picking.lowered "/main" [] [] = .ok l ∧ l.entry.isStruct = false ∧ LeavesSurely l.entry ∧
    l.state.code = pickingCode ∧ l.state.expansions = [pickingExpansion] := by
  obtain ⟨l, hl, hparts⟩ := Option.map_eq_some_iff.mp picking_lowers
  simp only [Prod.mk.injEq, decide_eq_true_eq] at hparts
  exact ⟨l, except_eq_ok_of_toOption hl, hparts⟩

theorem picking_steps (strings args : Array String) :
    Steps { code := pickingCode, strings, args } 0 22 [0, 1, 2, 3, 4, 5, 6, 7, 8, 9, 10, 11, 12]
      { slots := #[0, 0] } { pc := 22, slots := #[7, 1] } := by
  iterate 13
    refine .follow rfl ?_ ?_ rfl rfl ?_
    · decide
    · decide
  exact .refl _

/-- The expansion is left by its first `return`. -/
theorem picking_complete : ∃ l x d trace s t, picking.check "/main" [] [] = .ok () ∧
    picking.lowered "/main" [] [] = .ok l ∧
    l.entry.isStruct = false ∧ LeavesSurely l.entry ∧ (∀ limit, run l.codeModule #[] limit ≠ .error .missingReturn) ∧
    x ∈ l.state.expansions ∧ d ∈ picking.definitions ∧ d.path = x.callee ∧ d.isStruct = false ∧ d.hasValue = true ∧
    LeavesSurely d ∧ Reaches l #[] s ∧ s.pc = x.start ∧ Steps (loweredEnv l #[]) x.start x.stop trace s t ∧ t.pc = x.stop ∧
    ∃ r, trace.getLast? = some r.position ∧ (r ∈ x.exits ∨
      ∃ y ∈ l.state.expansions, y.stop = x.stop ∧ r ∈ y.exits ∧ ∀ r' ∈ x.exits, r.position < r'.position) := by
  obtain ⟨l, hl, hstruct, hsurely, hcode, hexpansions⟩ := picking_lowered
  obtain ⟨hrun, hexit⟩ := complete_return_paths picking_checks hl #[]
  have hx : pickingExpansion ∈ l.state.expansions := hexpansions ▸ List.mem_singleton_self _
  have hstart : loweredStart l = { slots := #[0, 0] } := by
    rw [loweredStart, hcode]
    decide
  have hreach : Reaches l #[] { slots := #[0, 0] } := by
    refine ⟨?_, [], hstart ▸ .refl _⟩
    rw [hcode]
    decide
  have hsteps := picking_steps l.state.strings #[]
  rw [← hcode] at hsteps
  exact ⟨l, pickingExpansion, picker, _, _, _, picking_checks, hl, hstruct, hsurely, hrun hstruct fun _ => hsurely, hx,
    by decide, by decide, by decide, by decide, by decide, hreach, rfl, hsteps, rfl,
    hexit _ hx picker (by decide) (by decide) (by decide) (by decide) (by decide) _ _ _ hreach rfl hsteps rfl⟩

def skipped : Program := {
  definitions := [{
    path := "/main"
    transforms := [{ name := "return", templateArgs := ["i32"] }]
    statements := [.repeatLoop (.int32 0) [.ret (.int32 1)]] }] }

theorem skipped_lowers : (skipped.lowered "/main" [] []).toOption.map (fun l => l.codeModule) =
    some { strings := #[], functions := [{ name := "/main", code := #[] }], entry := 0 } := by
  decide +kernel

/-- The check takes every `repeat` for one that runs, so what it accepts can end for want of a return. -/
theorem skipped_misses_return : skipped.check "/main" [] [] = .ok () ∧
    (∃ l, skipped.lowered "/main" [] [] = .ok l ∧ run l.codeModule #[] 1 = .error .missingReturn) ∧
    ∃ d ∈ skipped.definitions, d.isStruct = false ∧ d.hasValue = true ∧ ¬LeavesSurely d := by
  obtain ⟨l, hl, hmodule⟩ := Option.map_eq_some_iff.mp skipped_lowers
  refine ⟨except_eq_ok_of_toOption (by decide +kernel), ⟨l, except_eq_ok_of_toOption hl, ?_⟩, by decide⟩
  rw [hmodule]
  rfl

end FlatCode.Machine
