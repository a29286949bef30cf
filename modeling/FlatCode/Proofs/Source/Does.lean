import FlatCode.Proofs.Flow
import FlatCode.Proofs.Source.Words

/-! What it means for code to do what a part of an evaluation does, and how that follows the structure of the code. -/

namespace FlatCode.Source
open Machine (State Flow exec step perform)

/-- A run of some code agrees with a part of an evaluation. If that is done, nothing has been printed, and the result,
    the stack and the slots are related by `post`. -/
def Agrees {α : Type} (f : Flow) (r : Run α) (post : α → List Word → Array Word → Prop) : Prop :=
  match r with
  | .done a => ∃ m, f = .next m ∧ m.output = {} ∧ post a m.stack m.slots
  | .stop e => f = .halt e.answer
  | .timeout => f = .timeout
  | .stuck => False

theorem Agrees.andThen {α β : Type} {f : Flow} {g : State → Flow} {r : Run α} {k : α → Run β}
    {post : α → List Word → Array Word → Prop} {post' : β → List Word → Array Word → Prop} (hf : Agrees f r post)
    (hg : ∀ a m, m.output = {} → post a m.stack m.slots → Agrees (g m) (k a) post') :
    Agrees (f.andThen g) (r >>= k) post' := by
  cases r with
  | done a =>
    obtain ⟨m, rfl, hout, ha⟩ := hf
    exact hg a m hout ha
  | stop e =>
    cases hf
    rfl
  | timeout =>
    cases hf
    rfl
  | stuck => exact hf

/-- From every state with the given stack and slots that has printed nothing, the code does what the run `r` does. -/
def Does {α : Type} (f : State → Flow) (stack : List Word) (slots : Array Word) (r : Run α)
    (post : α → List Word → Array Word → Prop) : Prop :=
  ∀ m : State, m.stack = stack → m.slots = slots → m.output = {} → Agrees (f m) r post

abbrev Goes (f : State → Flow) (stack : List Word) (slots : Array Word) (stack' : List Word) (slots' : Array Word) :
    Prop :=
  Does f stack slots (.done ()) fun _ st sl => st = stack' ∧ sl = slots'

/-- The test of a loop has left a word that is zero if it fails, below which `J` holds. -/
def Tested {β : Type} (J : Bool → β → List Word → Array Word → Prop) (r : Bool × β) (stack : List Word)
    (slots : Array Word) : Prop :=
  ∃ w rest, stack = w :: rest ∧ (w = 0 ↔ r.1 = false) ∧ J r.1 r.2 rest slots

section
variable {α β : Type} {env : Machine.Env} {fuel : Nat} {p q : Piece} {stack stack' : List Word}
  {slots slots' : Array Word} {r : Run α} {post : α → List Word → Array Word → Prop}
  {post' : β → List Word → Array Word → Prop}

namespace Does

variable {J : Bool → β → List Word → Array Word → Prop} {f : State → Flow} {w : Word} {a : α}
  {I : α → List Word → Array Word → Prop} {test : α → Run (Bool × β)} {k : α → Run β} {pass : β → Run α}

theorem imp {post' : α → List Word → Array Word → Prop} (h : Does f stack slots r post)
    (hpost : ∀ a st sl, post a st sl → post' a st sl) : Does f stack slots r post' := by
  intro m hstack hslots hout
  have hm := h m hstack hslots hout
  cases r with
  | done a =>
    obtain ⟨m', hf, hout', ha⟩ := hm
    exact ⟨m', hf, hout', hpost _ _ _ ha⟩
  | stop | timeout | stuck => exact hm

theorem done (h : post a stack slots) : Does (exec env fuel .nop) stack slots (.done a) post := by
  intro m hstack hslots hout
  subst hstack hslots
  exact ⟨m, rfl, hout, h⟩

theorem of_goes (h : Goes f stack slots stack' slots') (hpost : post a stack' slots') :
    Does f stack slots (.done a) post := by
  intro m hstack hslots hout
  obtain ⟨m', hf, hout', rfl, rfl⟩ := h m hstack hslots hout
  exact ⟨m', hf, hout', hpost⟩

theorem seq (hp : Does (exec env fuel p) stack slots r post)
    (hq : ∀ a st sl, post a st sl → Does (exec env fuel q) st sl (k a) post') :
    Does (exec env fuel (p.seq q)) stack slots (r >>= k) post' := by
  intro m hstack hslots hout
  exact (hp m hstack hslots hout).andThen fun a m' hout' ha => hq a _ _ ha m' rfl rfl hout'

/-- What follows without code of its own. -/
theorem map (h : Does f stack slots r post)
    (hk : ∀ a st sl, post a st sl → ∃ b, k a = .done b ∧ post' b st sl) : Does f stack slots (r >>= k) post' := by
  intro m hstack hslots hout
  have hm := h m hstack hslots hout
  cases r with
  | done a =>
    obtain ⟨m', hf, hout', ha⟩ := hm
    obtain ⟨b, hb, hpost⟩ := hk a _ _ ha
    change Agrees (f m) (k a) post'
    rw [hb]
    exact ⟨m', hf, hout', hpost⟩
  | stop | timeout | stuck => exact hm

/-- Code that surely leads on, before the part in question. -/
theorem after (hp : Goes (exec env fuel p) stack slots stack' slots') (hq : Does (exec env fuel q) stack' slots' r post) :
    Does (exec env fuel (p.seq q)) stack slots r post := by
  refine Does.seq (k := fun _ => r) hp ?_
  rintro ⟨⟩ st sl ⟨rfl, rfl⟩
  exact hq

/-- Code that surely leads on, after the part in question. -/
theorem before {P Q : α → List Word → Array Word → Prop} (hp : Does (exec env fuel p) stack slots r P)
    (hq : ∀ a st sl, P a st sl → Does (exec env fuel q) st sl (.done a) Q) :
    Does (exec env fuel (p.seq q)) stack slots r Q := by
  have h := hp.seq hq
  cases r <;> exact h

/-! ### Instructions -/

section
variable {i : Instruction} {plain : i.op.isJump = false}

theorem op {n : Option Int} {f : Int → α} {rest : List Word}
    (h : ∀ m : State, m.stack = stack → m.slots = slots →
      perform env i.imm m i.op.operation = pushed m rest n)
    (hpost : ∀ a, n = some a → post (f a) (word a :: rest) slots) :
    Does (exec env fuel (.op i plain)) stack slots
      (match n with
      | some n => .done (f n)
      | none => .stop .divisionByZero) post := by
  intro m hstack hslots hout
  have hm := h { m with pc := m.pc + 1 } hstack hslots
  rw [exec, step, hm]
  cases n with
  | none => rfl
  | some n => exact ⟨_, rfl, hout, hslots ▸ hpost n rfl⟩

theorem goes (h : ∀ m : State, m.stack = stack → m.slots = slots →
      perform env i.imm m i.op.operation = .continue { m with stack := stack', slots := slots' }) :
    Goes (exec env fuel (.op i plain)) stack slots stack' slots' := by
  intro m hstack hslots hout
  have hm := h { m with pc := m.pc + 1 } hstack hslots
  rw [exec, step, hm]
  exact ⟨_, rfl, hout, rfl, rfl⟩

end

/-! ### Branches and loops -/

theorem branch (hyes : w ≠ 0 → Does (exec env fuel p) stack slots r post)
    (hno : w = 0 → Does (exec env fuel q) stack slots r post) :
    Does (exec env fuel (.branch p q)) (w :: stack) slots r post := by
  intro m hstack hslots hout
  rw [exec, Flow.choose, hstack]
  by_cases hw : w = 0
  · have hm := hno hw { m with stack, pc := m.pc + p.size + 2 } rfl hslots hout
    simp only [hw, if_true]
    exact hm
  · have hm := hyes hw { m with stack, pc := m.pc + 1 } rfl hslots hout
    have hend := hm.andThen (k := .done) fun a m' hout' ha =>
      ⟨{ m' with pc := m.pc + p.size + q.size + 2 }, rfl, hout', ha⟩
    simp only [hw, if_false]
    cases r <;> exact hend

theorem guard (hbody : w ≠ 0 → Does (exec env fuel p) stack slots r post)
    (hskip : w = 0 → r = .done a ∧ post a stack slots) : Does (exec env fuel (.guard p)) (w :: stack) slots r post := by
  intro m hstack hslots hout
  rw [exec, Flow.choose, hstack]
  by_cases hw : w = 0
  · obtain ⟨rfl, ha⟩ := hskip hw
    simp only [hw, if_true]
    exact ⟨_, rfl, hout, hslots ▸ ha⟩
  · simp only [hw, if_false]
    exact hbody hw { m with stack, pc := m.pc + 1 } rfl hslots hout

/-- Passes of a loop: `I` holds before each test, and `J` after it. -/
theorem iterate {cond body : State → Flow} {size : Nat}
    (hcond : ∀ a st sl, I a st sl → Does cond st sl (test a) (Tested J))
    (hbody : ∀ b st sl, J true b st sl → Does body st sl (pass b) I) (n : Nat) (h : I a stack slots) :
    Does (Flow.iterate cond body size n) stack slots (Run.iterate test pass n a) (J false) := by
  -- Both loops use up their fuel in the same way, one for each test.
  induction n generalizing a stack slots with
  | zero => exact fun _ _ _ _ => rfl
  | succ n ih =>
    intro m hstack hslots hout
    rw [Flow.iterate, Run.iterate]
    refine (hcond a _ _ h m hstack hslots hout).andThen ?_
    rintro ⟨b, rest⟩ m' hout' ⟨w, st', hst', hw, hJ⟩
    simp only [Flow.choose, hst']
    cases b with
    | false =>
      simp only [hw.mpr rfl, if_true]
      exact ⟨_, rfl, hout', hJ⟩
    | true =>
      have hw' : w ≠ 0 := fun h => nomatch hw.mp h
      simp only [hw', if_false]
      refine (hbody rest _ _ hJ { m' with stack := st', pc := m'.pc + 1 } rfl rfl hout').andThen ?_
      exact fun a' m'' hout'' ha => ih ha { m'' with pc := m.pc } rfl rfl hout''

theorem loop (hcond : ∀ a st sl, I a st sl → Does (exec env fuel p) st sl (test a) (Tested J))
    (hbody : ∀ b st sl, J true b st sl → Does (exec env fuel q) st sl (pass b) I) (h : I a stack slots) :
    Does (exec env fuel (.loop p q)) stack slots (Run.iterate test pass fuel a) (J false) :=
  iterate hcond hbody fuel h

end Does
end
end FlatCode.Source
