import FlatCode.Proofs.Flow

/-! What structured code does with enough passes of its loops. A piece leads from a state to a flow if it does so wherever
    it stands in the code and however much more fuel there is. A loop is followed pass by pass. -/

namespace FlatCode.Machine

def Flow.Matches : Flow → Flow → Prop
  | .next m, f => ∃ pc, f = .next { m with pc }
  | .exit waiting m, f => ∃ pc, f = .exit waiting { m with pc }
  | .halt r, f => f = .halt r
  | .timeout, _ => False

def Flow.Stops : Flow → Prop
  | .next _ | .timeout => False
  | .exit .. | .halt _ => True

/-- With enough passes of its loops, the piece leads from a state with the stack, slots and output of `m` to the flow. -/
def Leads (env : Env) (p : Piece) (m : State) (f : Flow) : Prop :=
  ∃ least, ∀ fuel, least ≤ fuel → ∀ pc, f.Matches (exec env fuel p { m with pc })

variable {f g : Flow} {k : State → Flow}

theorem Flow.Matches.andThen_next {m : State} (h : (Flow.next m).Matches g)
    (hk : ∀ pc, f.Matches (k { m with pc })) : f.Matches (g.andThen k) := by
  obtain ⟨pc, rfl⟩ := h
  exact hk pc

theorem Flow.Matches.andThen_stops (h : f.Matches g) (hf : f.Stops) : f.Matches (g.andThen k) := by
  cases f with
  | next | timeout => exact hf.elim
  | exit waiting m =>
    obtain ⟨pc, rfl⟩ := h
    exact ⟨pc, rfl⟩
  | halt r =>
    cases h
    rfl

namespace Leads
variable {env : Env} {p q : Piece} {m m' : State} {f : Flow} {w : Word} {rest : List Word}

theorem nop : Leads env .nop m (.next m) := ⟨0, fun _ _ pc => ⟨pc, rfl⟩⟩

variable {i : Instruction} {plain : i.op.isJump = false}

theorem op (h : ∀ pc, perform env i.imm { m with pc } i.op.operation = .continue { m' with pc }) :
    Leads env (.op i plain) m (.next m') :=
  ⟨0, fun _ _ pc => ⟨pc + 1, congrArg Outcome.flow (h (pc + 1))⟩⟩

theorem finish {r : Result} (h : ∀ pc, perform env i.imm { m with pc } i.op.operation = .finished r) :
    Leads env (.op i plain) m (.halt (.ok r)) :=
  ⟨0, fun _ _ pc => congrArg Outcome.flow (h (pc + 1))⟩

theorem seq (hp : Leads env p m (.next m')) (hq : Leads env q m' f) : Leads env (p.seq q) m f := by
  obtain ⟨a, ha⟩ := hp
  obtain ⟨b, hb⟩ := hq
  refine ⟨max a b, fun fuel hfuel pc => ?_⟩
  exact (ha fuel (by omega) pc).andThen_next (hb fuel (by omega))

theorem seq_stops (hp : Leads env p m f) (hf : f.Stops) : Leads env (p.seq q) m f := by
  obtain ⟨a, ha⟩ := hp
  exact ⟨a, fun fuel hfuel pc => (ha fuel hfuel pc).andThen_stops hf⟩

theorem guard_skip (hm : m.stack = 0 :: rest) : Leads env (.guard p) m (.next { m with stack := rest }) := by
  refine ⟨0, fun fuel _ pc => ⟨pc + p.size + 1, ?_⟩⟩
  simp only [exec, Flow.choose, hm, if_true]

theorem guard_enter (hm : m.stack = w :: rest) (hw : w ≠ 0) (hp : Leads env p { m with stack := rest } f) :
    Leads env (.guard p) m f := by
  obtain ⟨a, ha⟩ := hp
  refine ⟨a, fun fuel hfuel pc => ?_⟩
  simp only [exec, Flow.choose, hm, if_neg hw]
  exact ha fuel hfuel (pc + 1)

theorem exit {waiting : Nat} : Leads env (.exit waiting) m (.exit waiting m) := ⟨0, fun _ _ pc => ⟨pc, rfl⟩⟩

theorem scope (hp : Leads env p m f) (hf : f = .next m' ∨ ∃ waiting, f = .exit waiting m') :
    Leads env (.scope p) m (.next m') := by
  obtain ⟨a, ha⟩ := hp
  refine ⟨a, fun fuel hfuel pc => ?_⟩
  rcases hf with rfl | ⟨waiting, rfl⟩
  · obtain ⟨pc', hpc⟩ := ha fuel hfuel pc
    exact ⟨pc', by rw [exec, hpc]; rfl⟩
  · obtain ⟨pc', hpc⟩ := ha fuel hfuel pc
    exact ⟨pc + p.size, by rw [exec, hpc]; rfl⟩

theorem scope_halt {r : Except Fault Result} (hp : Leads env p m (.halt r)) : Leads env (.scope p) m (.halt r) := by
  obtain ⟨a, ha⟩ := hp
  refine ⟨a, fun fuel hfuel pc => ?_⟩
  show exec env fuel (.scope p) { m with pc } = _
  rw [exec, show exec env fuel p { m with pc } = .halt r from ha fuel hfuel pc]
  rfl

end Leads

/-! ### Loops -/

/-- With enough passes, also of the loops in it, a loop leads from the state to the flow. -/
def Loops (env : Env) (cond body : Piece) (m : State) (f : Flow) : Prop :=
  ∃ least passes, ∀ fuel, least ≤ fuel → ∀ n, passes ≤ n → ∀ pc,
    f.Matches (Flow.iterate (exec env fuel cond) (exec env fuel body) body.size n { m with pc })

namespace Loops
variable {env : Env} {cond body : Piece} {m m₁ m₂ : State} {f : Flow} {w : Word} {rest : List Word}

theorem leads (h : Loops env cond body m f) : Leads env (.loop cond body) m f := by
  obtain ⟨a, b, hab⟩ := h
  exact ⟨max a b, fun fuel hfuel pc => hab fuel (by omega) fuel (by omega) pc⟩

theorem done (hcond : Leads env cond m (.next m₁)) (hm : m₁.stack = 0 :: rest) :
    Loops env cond body m (.next { m₁ with stack := rest }) := by
  obtain ⟨a, ha⟩ := hcond
  refine ⟨a, 1, fun fuel hfuel n hn pc => ?_⟩
  obtain ⟨n, rfl⟩ := Nat.exists_eq_add_of_le' hn
  refine (ha fuel hfuel pc).andThen_next fun pc' => ⟨pc' + body.size + 2, ?_⟩
  simp only [Flow.choose, hm, if_true]

/-- The test holds, the body is run, and the loop goes on from there. -/
theorem pass (hcond : Leads env cond m (.next m₁)) (hm : m₁.stack = w :: rest) (hw : w ≠ 0)
    (hbody : Leads env body { m₁ with stack := rest } (.next m₂)) (hrest : Loops env cond body m₂ f) :
    Loops env cond body m f := by
  obtain ⟨a, ha⟩ := hcond
  obtain ⟨b, hb⟩ := hbody
  obtain ⟨c, d, hcd⟩ := hrest
  refine ⟨max a (max b c), d + 1, fun fuel hfuel n hn pc => ?_⟩
  obtain ⟨n, rfl⟩ := Nat.exists_eq_add_of_le' (Nat.le_trans (Nat.le_add_left 1 d) hn)
  refine (ha fuel (by omega) pc).andThen_next fun pc' => ?_
  simp only [Flow.choose, hm, if_neg hw]
  exact (hb fuel (by omega) (pc' + 1)).andThen_next fun _ => hcd fuel (by omega) n (by omega) pc

/-- The test holds, and the body leaves the loop. -/
theorem leave (hcond : Leads env cond m (.next m₁)) (hm : m₁.stack = w :: rest) (hw : w ≠ 0)
    (hbody : Leads env body { m₁ with stack := rest } f) (hf : f.Stops) : Loops env cond body m f := by
  obtain ⟨a, ha⟩ := hcond
  obtain ⟨b, hb⟩ := hbody
  refine ⟨max a b, 1, fun fuel hfuel n hn pc => ?_⟩
  obtain ⟨n, rfl⟩ := Nat.exists_eq_add_of_le' hn
  refine (ha fuel (by omega) pc).andThen_next fun pc' => ?_
  simp only [Flow.choose, hm, if_neg hw]
  exact (hb fuel (by omega) (pc' + 1)).andThen_stops hf

end Loops
end FlatCode.Machine
