import FlatCode.Proofs.Results
import FlatCode.Proofs.Shallow

/-! Two inferences, or two checks, side by side. The second one tracks the first if it finds the same from a memory that is
    related to that of the first. An inference may give up, if that is allowed; then nothing is said of the second. -/

namespace FlatCode

namespace ReturnCache

/-- A property of memories that is kept by remembering what was not known. -/
def Stable (K : ReturnCache → Prop) : Prop :=
  ∀ c path, K c → c.lookup path = none → ∀ c' info, K c' → K ((path, info) :: c')

def Same (K : ReturnCache → Prop) (c c' : ReturnCache) : Prop := c = c' ∧ K c

theorem stable_true : Stable fun _ => True := fun _ _ _ _ _ _ _ => trivial

end ReturnCache

section
variable {S : ReturnCache → ReturnCache → Prop} {mayStop : Prop} {α β : Type}

namespace Recall
variable {x y : Recall α} {f g : α → Recall β} {Q Q' : α → Prop} {R : β → Prop}

/-- From memories that are related by `S`, both computations have one result, with the property `Q`. -/
def Tracks (S : ReturnCache → ReturnCache → Prop) (mayStop : Prop) (x y : Recall α) (Q : α → Prop) : Prop :=
  ∀ c c', S c c' → (mayStop ∧ x c = none) ∨ ∃ a t t', x c = some (a, t) ∧ y c' = some (a, t') ∧ S t t' ∧ Q a

/-- From one memory, of which `K` holds, both computations have one result and leave one memory. -/
abbrev InStep (K : ReturnCache → Prop) (mayStop : Prop) (x y : Recall α) : Prop :=
  Tracks (ReturnCache.Same K) mayStop x y fun _ => True

namespace Tracks

theorem pure {a : α} (h : Q a) : Tracks S mayStop (Pure.pure a) (Pure.pure a) Q :=
  fun c c' hS => .inr ⟨a, c, c', rfl, rfl, hS, h⟩

theorem mono (h : Tracks S mayStop x y Q) (hQ : ∀ a, Q a → Q' a) : Tracks S mayStop x y Q' := by
  intro c c' hS
  rcases h c c' hS with hstop | ⟨a, t, t', hx, hy, hS', ha⟩
  · exact .inl hstop
  · exact .inr ⟨a, t, t', hx, hy, hS', hQ a ha⟩

theorem bind (h : Tracks S mayStop x y Q) (hf : ∀ a, Q a → Tracks S mayStop (f a) (g a) R) :
    Tracks S mayStop (x >>= f) (y >>= g) R := by
  intro c c' hS
  show _ ∧ (x c).bind (fun r => f r.1 r.2) = none ∨ ∃ b t t', (x c).bind (fun r => f r.1 r.2) = some (b, t) ∧
    (y c').bind (fun r => g r.1 r.2) = some (b, t') ∧ _
  rcases h c c' hS with ⟨hstop, hx⟩ | ⟨a, t, t', hx, hy, hS', ha⟩
  · exact .inl ⟨hstop, by rw [hx]; rfl⟩
  · rw [hx, hy]
    exact hf a ha t t' hS'

theorem tooDeep (h : mayStop) : Tracks S mayStop .tooDeep y Q := fun _ _ _ => .inl ⟨h, rfl⟩

theorem mapM {γ : Type} {k k' : γ → Recall α} {l : List γ} (hk : ∀ z ∈ l, Tracks S mayStop (k z) (k' z) fun _ => True) :
    Tracks S mayStop (l.mapM k) (l.mapM k') fun _ => True := by
  induction l with
  | nil => exact .pure trivial
  | cons z l ih =>
    rw [List.mapM_cons, List.mapM_cons]
    refine (hk z List.mem_cons_self).bind fun _ _ => ?_
    exact (ih fun z hz => hk z (List.mem_cons_of_mem _ hz)).bind fun _ _ => .pure trivial

/-- What tracks both ways is the same. -/
theorem eq (h : Tracks (ReturnCache.Same fun _ => True) mayStop x y Q)
    (h' : Tracks (ReturnCache.Same fun _ => True) mayStop y x Q') (c : ReturnCache) : x c = y c := by
  rcases h c c ⟨rfl, trivial⟩ with ⟨-, hx⟩ | ⟨a, t, _, hx, hy, ⟨rfl, -⟩, -⟩
  · rcases h' c c ⟨rfl, trivial⟩ with ⟨-, hy⟩ | ⟨a, t, _, -, hx', -⟩
    · exact hx.trans hy.symm
    · exact nomatch hx.symm.trans hx'
  · exact hx.trans hy.symm

/-- What keeps a property of the memory is what tracks itself from memories that have it. -/
theorem meets {S : ReturnCache → Prop} (h : Tracks (ReturnCache.Same S) True x x Q) : x.Meets S Q := by
  intro c a c' hc hrun
  rcases h c c ⟨rfl, hc⟩ with ⟨-, hnone⟩ | ⟨b, t, _, hx, -, ⟨-, ht⟩, hb⟩
  · cases hrun.symm.trans hnone
  · cases hrun.symm.trans hx
    exact ⟨ht, hb⟩

end Tracks

theorem Meets.tracks {S : ReturnCache → Prop} (h : x.Meets S Q) : Tracks (ReturnCache.Same S) True x x Q := by
  rintro c _ ⟨rfl, hc⟩
  cases hx : x c with
  | none => exact .inl ⟨trivial, rfl⟩
  | some r =>
    obtain ⟨hr, ha⟩ := h c r.1 r.2 hc hx
    exact .inr ⟨r.1, r.2, r.2, rfl, rfl, ⟨rfl, hr⟩, ha⟩

end Recall

namespace Infer
variable {x y : Infer α} {f g : α → Infer β} {Q Q' : α → Prop} {R : β → Prop}

/-- From memories that are related by `S`, both inferences have one result, with the property `Q`, or one fault. -/
def Tracks (S : ReturnCache → ReturnCache → Prop) (mayStop : Prop) (x y : Infer α) (Q : α → Prop) : Prop :=
  Recall.Tracks S mayStop x.run y.run (Ends (· ≠ .tooDeep) Q)

abbrev InStep (K : ReturnCache → Prop) (mayStop : Prop) (x y : Infer α) : Prop :=
  Tracks (ReturnCache.Same K) mayStop x y fun _ => True

namespace Tracks

theorem pure {a : α} (h : Q a) : Tracks S mayStop (Pure.pure a) (Pure.pure a) Q :=
  Recall.Tracks.pure (Q := Ends (· ≠ .tooDeep) Q) h

theorem throw {e : Error} (h : e ≠ .tooDeep) : Tracks S mayStop (MonadExcept.throw e : Infer α) (MonadExcept.throw e) Q :=
  Recall.Tracks.pure (Q := Ends (· ≠ .tooDeep) Q) h

theorem bind (h : Tracks S mayStop x y Q) (hf : ∀ a, Q a → Tracks S mayStop (f a) (g a) R) :
    Tracks S mayStop (x >>= f) (y >>= g) R :=
  Recall.Tracks.bind h fun r hr => match r, hr with
    | .ok a, ha => hf a ha
    | .error _, he => Recall.Tracks.pure (Q := Ends (· ≠ .tooDeep) R) he

theorem liftBind {e : Except Error α} (he : Shallow e) (hf : ∀ a, e = .ok a → Tracks S mayStop (f a) (g a) R) :
    Tracks S mayStop (liftM e >>= f) (liftM e >>= g) R := by
  cases e with
  | ok a => exact hf a rfl
  | error e => exact Recall.Tracks.pure (Q := Ends (· ≠ .tooDeep) R) fun h => he (congrArg _ h)

theorem lift {e : Except Error α} (he : Shallow e) (hQ : ∀ a, e = .ok a → Q a) :
    Tracks S mayStop (liftM e) (liftM e) Q := by
  cases e with
  | ok a => exact Recall.Tracks.pure (Q := Ends (· ≠ .tooDeep) Q) (hQ a rfl)
  | error e => exact Recall.Tracks.pure (Q := Ends (· ≠ .tooDeep) Q) fun h => he (congrArg _ h)

theorem ite {c : Prop} [Decidable c] {x' y' : Infer α} (h : c → Tracks S mayStop x y Q)
    (h' : ¬c → Tracks S mayStop x' y' Q) : Tracks S mayStop (if c then x else x') (if c then y else y') Q := by
  split
  case isTrue hc => exact h hc
  case isFalse hc => exact h' hc

theorem check {failed : Prop} [Decidable failed] {e : Error} {k k' : Unit → Infer α} (he : e ≠ .tooDeep)
    (hk : ¬failed → Tracks S mayStop (k ()) (k' ()) Q) :
    Tracks S mayStop (if failed then MonadExcept.throw e >>= k else k ())
      (if failed then MonadExcept.throw e >>= k' else k' ()) Q :=
  ite (fun _ => throw he) hk

theorem ofRecall {m m' : Recall α} (h : Recall.Tracks S mayStop m m' Q) : Tracks S mayStop (liftM m) (liftM m') Q := by
  have hrun : Recall.Tracks S mayStop (m >>= fun a => Pure.pure (Except.ok a : Except Error α))
      (m' >>= fun a => Pure.pure (Except.ok a : Except Error α)) (Ends (· ≠ .tooDeep) Q) :=
    h.bind fun _ ha => .pure (Q := Ends (· ≠ .tooDeep) Q) ha
  exact hrun

theorem tooDeep (h : mayStop) : Tracks S mayStop (ExceptT.mk Recall.tooDeep) y Q := Recall.Tracks.tooDeep h

theorem mapM {γ : Type} {k k' : γ → Infer α} {l : List γ} (hk : ∀ z ∈ l, Tracks S mayStop (k z) (k' z) fun _ => True) :
    Tracks S mayStop (l.mapM k) (l.mapM k') fun _ => True := by
  induction l with
  | nil => exact .pure trivial
  | cons z l ih =>
    rw [List.mapM_cons, List.mapM_cons]
    refine (hk z List.mem_cons_self).bind fun _ _ => ?_
    exact (ih fun z hz => hk z (List.mem_cons_of_mem _ hz)).bind fun _ _ => .pure trivial

end Tracks
end Infer

namespace Check.Checking
variable {x y : Checking α} {f g : α → Checking β} {Q Q' : α → Prop} {R : β → Prop}

/-- From memories that are related by `S`, both checks have one result, with the property `Q`, or one fault. -/
def Tracks (S : ReturnCache → ReturnCache → Prop) (x y : Checking α) (Q : α → Prop) : Prop :=
  ∀ c c', S c c' → (∃ e, x c = .error e ∧ y c' = .error e) ∨
    ∃ a t t', x c = .ok (a, t) ∧ y c' = .ok (a, t') ∧ S t t' ∧ Q a

namespace Tracks

theorem pure {a : α} (h : Q a) : Tracks S (Pure.pure a) (Pure.pure a) Q := fun c c' hS => .inr ⟨a, c, c', rfl, rfl, hS, h⟩

theorem throw {e : Error} : Tracks S (MonadExcept.throw e : Checking α) (MonadExcept.throw e) Q :=
  fun _ _ _ => .inl ⟨e, rfl, rfl⟩

theorem bind (h : Tracks S x y Q) (hf : ∀ a, Q a → Tracks S (f a) (g a) R) : Tracks S (x >>= f) (y >>= g) R := by
  intro c c' hS
  show (∃ e, (x c >>= fun r => f r.1 r.2) = .error e ∧ (y c' >>= fun r => g r.1 r.2) = .error e) ∨
    ∃ b t t', (x c >>= fun r => f r.1 r.2) = .ok (b, t) ∧ (y c' >>= fun r => g r.1 r.2) = .ok (b, t') ∧ _
  rcases h c c' hS with ⟨e, hx, hy⟩ | ⟨a, t, t', hx, hy, hS', ha⟩
  · rw [hx, hy]
    exact .inl ⟨e, rfl, rfl⟩
  · rw [hx, hy]
    exact hf a ha t t' hS'

theorem liftBind {e : Except Error α} (hf : ∀ a, e = .ok a → Tracks S (f a) (g a) R) :
    Tracks S (liftM e >>= f) (liftM e >>= g) R := by
  cases e with
  | ok a => exact hf a rfl
  | error e => exact fun _ _ _ => .inl ⟨e, rfl, rfl⟩

theorem lift {e : Except Error α} : Tracks S (liftM e) (liftM e) fun _ => True := by
  cases e with
  | ok a => exact pure trivial
  | error e => exact throw

theorem ite {c : Prop} [Decidable c] {x' y' : Checking α} (h : c → Tracks S x y Q) (h' : ¬c → Tracks S x' y' Q) :
    Tracks S (if c then x else x') (if c then y else y') Q := by
  split
  case isTrue hc => exact h hc
  case isFalse hc => exact h' hc

theorem check {failed : Prop} [Decidable failed] {e : Error} {k k' : Unit → Checking α}
    (hk : ¬failed → Tracks S (k ()) (k' ()) Q) :
    Tracks S (if failed then MonadExcept.throw e >>= k else k ())
      (if failed then MonadExcept.throw e >>= k' else k' ()) Q :=
  ite (fun _ => throw) hk

theorem mapM {γ : Type} {k k' : γ → Checking α} {l : List γ} (hk : ∀ z ∈ l, Tracks S (k z) (k' z) fun _ => True) :
    Tracks S (l.mapM k) (l.mapM k') fun _ => True := by
  induction l with
  | nil => exact .pure trivial
  | cons z l ih =>
    rw [List.mapM_cons, List.mapM_cons]
    refine (hk z List.mem_cons_self).bind fun _ _ => ?_
    exact (ih fun z hz => hk z (List.mem_cons_of_mem _ hz)).bind fun _ _ => .pure trivial

/-- A computation without faults that does not give up. -/
theorem ofRecall {m m' : Recall α} (h : Recall.Tracks S False m m' Q) : Tracks S (.ofRecall m) (.ofRecall m') Q := by
  intro c c' hS
  rcases h c c' hS with ⟨hstop, -⟩ | ⟨a, t, t', hm, hm', hS', ha⟩
  · exact hstop.elim
  · refine .inr ⟨a, t, t', ?_, ?_, hS', ha⟩
    · rw [Checking.ofRecall, hm]
    · rw [Checking.ofRecall, hm']

theorem ofInfer {m m' : Infer α} (h : Recall.Tracks S False m.run m'.run fun _ => True) :
    Tracks S (.ofInfer m) (.ofInfer m') fun _ => True := by
  refine (ofRecall h).bind fun r _ => ?_
  cases r with
  | ok a => exact .pure trivial
  | error e => exact .throw

end Tracks
end Check.Checking
end

/-- Definitions whose results are inferred alike, where both are inferred, have results that are found alike. -/
theorem Definition.tracks_returnInfo {K : ReturnCache → Prop} {mayStop : Prop}
    {infer infer' : List String → Definition → Recall Kind} {busy : List String} {d : Definition}
    (hK : ReturnCache.Stable K) (h : d.isStruct = false → d.path ∉ busy →
      Recall.InStep K mayStop (infer (d.path :: busy) d) (infer' (d.path :: busy) d)) :
    Infer.InStep K mayStop (d.returnInfo infer busy) (d.returnInfo infer' busy) := by
  have hget : Infer.Tracks (ReturnCache.Same K) mayStop MonadState.get MonadState.get K := by
    rintro c _ ⟨rfl, hc⟩
    exact .inr ⟨_, _, _, rfl, rfl, ⟨rfl, hc⟩, hc⟩
  refine hget.bind fun cache hcache => ?_
  split
  · exact .pure trivial
  case h_2 hnone =>
    have hremember {info : ReturnInfo} : Infer.InStep K mayStop (liftM (ReturnCache.remember d.path info))
        (liftM (ReturnCache.remember d.path info)) := by
      refine .ofRecall ?_
      rintro c _ ⟨rfl, hc⟩
      exact .inr ⟨_, _, _, rfl, rfl, ⟨rfl, hK cache d.path hcache hnone c info hc⟩, trivial⟩
    refine .liftBind ReturnInfo.shallow_declared? fun declared _ => ?_
    cases declared with
    | some info => exact hremember
    | none =>
      refine .ite (fun _ => hremember) fun hvalue => .ite (fun _ => .pure trivial) fun hbusy => ?_
      have hstruct : d.isStruct = false := by simp_all
      have hfree : d.path ∉ busy := by simpa using hbusy
      exact (Infer.Tracks.ofRecall (h hstruct hfree)).bind fun _ _ => hremember

end FlatCode
