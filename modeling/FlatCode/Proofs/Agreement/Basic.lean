import FlatCode.Lower.Program
import FlatCode.Proofs.Acceptance.Checking
import FlatCode.Proofs.Effects
import FlatCode.Proofs.Routine

/-! Lowering what is accepted: which faults it may still find, how its scope and context follow those of the check, and
    the rules by which the parts of lowering come together. -/

namespace FlatCode

/-- The faults in kinds that lowering may find in whatever is accepted. -/
def TypeError.isResidual : TypeError → Bool
  | .bindingMismatch _ | .notIndexable _ | .branchMismatch | .condition .forLoop | .immutableTarget .. => true
  | _ => false

/-- The faults in kinds that lowering may find where the kinds are not known to the check. -/
def TypeError.isLate : TypeError → Bool
  | .softwareNumeric _ | .unsupportedBindingType _ | .nonNumeric _ | .mixedSign _ | .mixedFloat _ | .pointerPair
  | .pointerOnRight | .pointerOffset | .negateUnsigned | .floatRequired _ | .booleanOperand | .convertOperand
  | .dereferenceTarget | .stepShape _ | .stepOperand _ | .voidReturnsValue | .repeatCount | .loopCount | .condition _
  | .printPointer _ | .indexKind _ | .elementMismatch _ .element | .notACollection _ => true
  | _ => false

/-- The faults that lowering may find in whatever is accepted: what the code cannot express, except for a name that is
    not known, and some kinds. To stop for want of depth is no fault. -/
def Error.isResidual : Error → Bool
  | .lowering (.unknownName _) | .tooDeep => false
  | .lowering _ => true
  | .type cause => cause.isResidual
  | _ => false

/-- The faults that lowering may find where the check has not seen what a call means, or what its effects or the kinds
    of its operands are. -/
def Error.isLate : Error → Bool
  | .structural (.unknownCall _) | .effect _ => true
  | .callShape (.unknownLabel _) | .callShape (.labelTaken _) | .callShape (.argumentCount _) => true
  | .type cause => cause.isLate
  | _ => false

/-- How lowering an accepted program may stop: for want of depth, or with a fault; if the program is regular, with one that
    remains in any. -/
inductive Error.Tolerated (exact : Prop) (e : Error) : Prop
  | tooDeep (h : e = .tooDeep)
  | residual (h : e.isResidual = true)
  | late (hexact : ¬exact) (h : e.isLate = true)

section
variable {exact : Prop} {T : Error → Prop} {α β : Type} {Q Q' : α → Prop} {R : β → Prop} {x : Except Error α}
  {f : α → Except Error β}

namespace Ends

theorem mono (h : Ends T Q x) (hQ : ∀ a, x = .ok a → Q a → Q' a) : Ends T Q' x :=
  match x, h, hQ with
  | .ok a, h, hQ => hQ a rfl h
  | .error _, h, _ => h

theorem bind (h : Ends T Q x) (hf : ∀ a, x = .ok a → Q a → Ends T R (f a)) : Ends T R (x >>= f) :=
  match x, h, hf with
  | .ok a, h, hf => hf a rfl h
  | .error _, h, _ => h

theorem of_ok {a : α} (hx : x = .ok a) (h : Q a) : Ends T Q x := hx ▸ h

/-- What cannot fail in a regular program, and otherwise fails late only. -/
theorem late {P : α → Prop} (hexact : exact → ∃ a, x = .ok a ∧ P a) (hlate : ∀ e, x = .error e → e.isLate = true) :
    Ends (Error.Tolerated exact) (fun a => exact → P a) x := by
  cases hx : x with
  | ok a =>
    intro h
    obtain ⟨a', ha', hP⟩ := hexact h
    cases hx.symm.trans ha'
    exact hP
  | error e =>
    refine Error.Tolerated.late (fun h => ?_) (hlate e hx)
    obtain ⟨a, ha, -⟩ := hexact h
    exact nomatch hx.symm.trans ha

/-- The same, with what is known in any program. -/
theorem orLate {a : α} (h : Ends (·.isLate = true) Q x) (hexact : exact → x = .ok a) :
    Ends (Error.Tolerated exact) (fun r => Q r ∧ (exact → r = a)) x :=
  match x, h, hexact with
  | .ok _, h, hexact => ⟨h, fun he => Except.ok.inj (hexact he)⟩
  | .error _, h, hexact => Error.Tolerated.late (fun he => (nomatch hexact he)) h

theorem mapM {γ : Type} {g : γ → Except Error α} {l : List γ} (h : ∀ c ∈ l, Ends T (fun _ => True) (g c)) :
    Ends T (·.length = l.length) (l.mapM g) := by
  induction l with
  | nil => exact rfl
  | cons c l ih =>
    rw [List.mapM_cons]
    refine (h c List.mem_cons_self).bind fun _ _ _ => ?_
    exact (ih fun c hc => h c (List.mem_cons_of_mem _ hc)).bind fun _ _ hr => congrArg (· + 1) hr

end Ends

namespace Infer.Meets
variable {S : ReturnCache → Prop} {g : α → Infer β}

theorem liftBind (hx : Ends T Q x) (hg : ∀ a, x = .ok a → Q a → (g a).Meets S T R) : Infer.Meets S T (liftM x >>= g) R := by
  cases hx' : x with
  | ok a => exact hg a hx' (by rw [hx'] at hx; exact hx)
  | error e => exact Infer.Meets.throw (by rw [hx'] at hx; exact hx)

theorem okBind {a : α} (hx : x = .ok a) (hg : (g a).Meets S T R) : Infer.Meets S T (liftM x >>= g) R := by
  subst hx
  exact hg

theorem check {failed : Prop} [Decidable failed] {e : Error} {k : Unit → Infer β} (hfail : failed → T e)
    (h : ¬failed → (k ()).Meets S T R) : Infer.Meets S T (if failed then MonadExcept.throw e >>= k else k ()) R := by
  split
  case isTrue hfailed => exact Infer.Meets.throw (hfail hfailed)
  case isFalse hpassed => exact h hpassed

end Infer.Meets

namespace Lower

def Meets (S : ReturnCache → Prop) (T : Error → Prop) (m : Lowering α) (Q : α → Prop) : Prop :=
  ∀ s, S s.cache → Ends T (fun r => S r.2.cache ∧ Q r.1) (m s)

namespace Meets
variable {S : ReturnCache → Prop} {m : Lowering α} {g : α → Lowering β}

variable {e : Error} {m' : Lowering β} {a : α}

theorem pure (h : Q a) : Meets S T (Pure.pure a) Q := fun _ hs => ⟨hs, h⟩

theorem throw (h : T e) : Meets S T (MonadExcept.throw e : Lowering α) Q := fun _ _ => h

theorem mono (h : Meets S T m Q) (hQ : ∀ a, Q a → Q' a) : Meets S T m Q' :=
  fun s hs => (h s hs).mono fun _ _ hr => ⟨hr.1, hQ _ hr.2⟩

theorem bind (h : Meets S T m Q) (hg : ∀ a, Q a → Meets S T (g a) R) : Meets S T (m >>= g) R :=
  fun s hs => (h s hs).bind fun r _ hr => hg r.1 hr.2 r.2 hr.1

theorem andThen (h : Meets S T m Q) (h' : Meets S T m' R) : Meets S T (m >>= fun _ => m') R :=
  h.bind fun _ _ => h'

theorem liftBind (hx : Ends T Q x) (hg : ∀ a, x = .ok a → Q a → Meets S T (g a) R) : Meets S T (liftM x >>= g) R := by
  cases hx' : x with
  | ok a => exact hg a hx' (by rw [hx'] at hx; exact hx)
  | error e => exact fun _ _ => (by rw [hx'] at hx; exact hx)

theorem okBind (hx : x = .ok a) (hg : Meets S T (g a) R) : Meets S T (liftM x >>= g) R := by
  subst hx
  exact hg

theorem lift (hx : Ends T Q x) : Meets S T (liftM x) Q := by
  cases hx' : x with
  | ok a => exact fun s hs => ⟨hs, by rw [hx'] at hx; exact hx⟩
  | error e => exact fun _ _ => (by rw [hx'] at hx; exact hx)

theorem check {failed : Prop} [Decidable failed] {k : Unit → Lowering β} (hfail : failed → T e)
    (h : ¬failed → Meets S T (k ()) R) : Meets S T (if failed then MonadExcept.throw e >>= k else k ()) R := by
  split
  case isTrue hfailed => exact fun _ _ => hfail hfailed
  case isFalse hpassed => exact h hpassed

theorem ite {c : Prop} [Decidable c] {m' : Lowering α} (h : c → Meets S T m Q) (h' : ¬c → Meets S T m' Q) :
    Meets S T (if c then m else m') Q := by
  split
  case isTrue hc => exact h hc
  case isFalse hc => exact h' hc

theorem infer {i : Infer α} (h : i.Meets S T Q) (hdeep : T .tooDeep) : Meets S T (infer i) Q := by
  intro s hs
  unfold Lower.infer
  split
  case h_1 a cache hrun => exact h s.cache _ cache hs hrun
  case h_2 e cache hrun => exact (h s.cache _ cache hs hrun).2
  case h_3 => exact hdeep

theorem mapM {γ : Type} {k : γ → Lowering α} {l : List γ} (h : ∀ c ∈ l, Meets S T (k c) fun _ => True) :
    Meets S T (l.mapM k) fun r => r.length = l.length := by
  induction l with
  | nil => exact .pure rfl
  | cons c l ih =>
    rw [List.mapM_cons]
    refine (h c List.mem_cons_self).bind fun _ _ => ?_
    exact (ih fun c hc => h c (List.mem_cons_of_mem _ hc)).bind fun _ hr => .pure (congrArg (· + 1) hr)

/-- What neither fails nor changes the memory. -/
theorem of_cache (h : ∀ s, ∃ a t, m s = .ok (a, t) ∧ t.cache = s.cache) : Meets S T m fun _ => True := by
  intro s hs
  obtain ⟨a, t, hrun, hcache⟩ := h s
  exact .of_ok hrun ⟨hcache ▸ hs, trivial⟩

theorem openJump {op : Opcode} : Meets S T (openJump op) fun _ => True := .of_cache fun _ => ⟨_, _, rfl, rfl⟩

theorem closeJump {position : Nat} : Meets S T (closeJump position) fun _ => True := .of_cache fun _ => ⟨_, _, rfl, rfl⟩

theorem branch (h : Meets S T m Q) (h' : Meets S T m' R) : Meets S T (branch m m') fun r => Q r.1 ∧ R r.2 :=
  openJump.bind fun _ _ => h.bind fun _ ha => openJump.bind fun _ _ => closeJump.andThen <| h'.bind fun _ hb =>
    closeJump.andThen (.pure ⟨ha, hb⟩)

theorem whenNonzero (h : Meets S T m Q) : Meets S T (whenNonzero m) Q :=
  openJump.bind fun _ _ => h.bind fun _ ha => closeJump.andThen (.pure ha)

theorem loop (h : Meets S T m Q) (hg : ∀ a, Q a → Meets S T (g a) R) : Meets S T (loop m g) R := by
  refine Meets.bind (Q := fun _ => True) (.of_cache fun _ => ⟨_, _, rfl, rfl⟩) fun _ _ => h.bind fun a ha => ?_
  refine openJump.bind fun _ _ => (hg a ha).bind fun _ hb => ?_
  exact Meets.andThen (Q := fun _ => True) (.of_cache fun _ => ⟨_, _, rfl, rfl⟩) (closeJump.andThen (.pure hb))

end Meets

theorem Routine.meets {S : ReturnCache → Prop} {d d' : Nat} {m : Lowering α} (h : Routine T True d d' m) :
    Meets S T m fun _ => True := by
  induction h with
  | pure => exact .pure trivial
  | throw he => exact .throw he
  | bind _ _ ihx ihf => exact ihx.bind fun a _ => ihf a
  | quiet | newSlots | fail => exact .of_cache fun _ => ⟨_, _, rfl, rfl⟩
  | branch _ _ ihy ihn => exact (Meets.branch ihy ihn).mono fun _ _ => trivial
  | whenNonzero _ ih => exact ih.whenNonzero
  | loop _ _ _ ihc ihb => exact ihc.loop fun a _ => ihb a
  | loopUntil _ _ _ _ _ ihc iht ihn iha =>
    refine (ihc.loop (R := fun _ => True) fun _ _ => iht.andThen ?_).bind fun _ _ => iha.andThen .closeJump
    exact (Meets.whenNonzero .openJump).bind fun _ _ => ihn.andThen (.pure trivial)

end Lower
end
end FlatCode
