import FlatCode.Check.Basic
import FlatCode.Proofs.Lookup
import FlatCode.Proofs.Monad

/-! What definitions return. A result that is remembered is the one that the definition declares; one that is inferred
    is a value just if the body returns one somewhere (`meets_returnInfo`). -/

namespace FlatCode

/-! ### Results -/

variable {d : Definition} {definitions : List Definition} {P : Prop} {info : ReturnInfo}

/-- A `return` transform declares a result, or it is a fault. -/
theorem ReturnInfo.declared?_ne_none (h : d.hasTransform "return" = true) : declared? d ≠ .ok none := by
  intro hdeclared
  unfold declared? at hdeclared
  split at hdeclared
  case h_1 hnone =>
    obtain ⟨t, ht, hname⟩ := List.any_eq_true.mp h
    exact List.find?_eq_none.mp hnone t (List.mem_reverse.mpr ht) hname
  case h_2 =>
    split at hdeclared
    · exact nomatch hdeclared
    · split at hdeclared
      · exact nomatch hdeclared
      · split at hdeclared
        · exact nomatch hdeclared
        · obtain ⟨-, -, hdeclared⟩ := Stateful.except_bind_eq_ok.mp hdeclared
          split at hdeclared
          · exact nomatch hdeclared
          · dsimp only at hdeclared
            split at hdeclared
            · split at hdeclared <;> exact nomatch hdeclared
            · exact nomatch hdeclared

namespace Definition

def Gives (d : Definition) (info : ReturnInfo) : Prop :=
  match ReturnInfo.declared? d with
  | .ok (some declared) => info = declared
  | .ok none => if d.isStruct || !Returns.containsValue d.body then info = .void else info.isVoid = false
  | .error _ => False

def hasValue (d : Definition) : Bool :=
  match ReturnInfo.declared? d with
  | .ok (some declared) => !declared.isVoid
  | .ok none => !d.isStruct && Returns.containsValue d.body
  | .error _ => false

theorem Gives.isVoid {d : Definition} {info : ReturnInfo} (h : d.Gives info) : info.isVoid = !d.hasValue := by
  unfold Gives at h
  unfold hasValue
  split at h
  · rw [h, Bool.not_not]
  · split at h
    case isTrue hvoid =>
      rw [h]
      simpa [ReturnInfo.void] using hvoid
    case isFalse hvalue =>
      rw [h]
      simpa using hvalue
  · exact h.elim

end Definition

/-- If `P` holds, the results that are remembered are those of the definitions. -/
def ReturnCache.Sound (P : Prop) (definitions : List Definition) (cache : ReturnCache) : Prop :=
  P → ∀ d ∈ definitions, ∀ info, cache.lookup d.path = some info → d.Gives info

abbrev Scope.Sound (scope : Scope) : ReturnCache → Prop := ReturnCache.Sound True scope.definitions

theorem ReturnCache.Sound.nil : Sound P definitions [] :=
  fun _ _ _ _ h => nomatch h

theorem ReturnCache.Sound.cons {cache : ReturnCache}
    (h : Sound P definitions cache) (hdistinct : Definition.Distinct definitions)
    (hd : d ∈ definitions) (hinfo : P → d.Gives info) : Sound P definitions ((d.path, info) :: cache) := by
  intro hP d' hd' info' hlookup
  rw [List.lookup_cons] at hlookup
  cases hpath : d'.path == d.path with
  | true =>
    rw [hpath] at hlookup
    cases hlookup
    exact hdistinct d' hd' d hd (eq_of_beq hpath) ▸ hinfo hP
  | false =>
    rw [hpath] at hlookup
    exact h hP d' hd' info' hlookup

/-! ### Computations that keep a property of the memory -/

section
variable {S : ReturnCache → Prop} {T : Error → Prop} {α β : Type}

namespace Recall
variable {m : Recall α} {f : α → Recall β} {Q Q' : α → Prop} {R : β → Prop}

/-- From a memory with the property `S` the computation leads to another, and its result has the property `Q`. -/
def Meets (S : ReturnCache → Prop) (m : Recall α) (Q : α → Prop) : Prop :=
  ∀ c a c', S c → m c = some (a, c') → S c' ∧ Q a

abbrev Keeps (S : ReturnCache → Prop) (m : Recall α) : Prop := m.Meets S fun _ => True

namespace Meets

theorem pure {a : α} (h : Q a) : Meets S (Pure.pure a) Q := by
  intro c _ _ hc hrun
  cases hrun
  exact ⟨hc, h⟩

theorem mono (h : m.Meets S Q) (hQ : ∀ a, Q a → Q' a) : m.Meets S Q' :=
  fun c a c' hc hrun => ⟨(h c a c' hc hrun).1, hQ a (h c a c' hc hrun).2⟩

theorem bind (h : m.Meets S Q) (hf : ∀ a, Q a → (f a).Meets S R) : (m >>= f).Meets S R := by
  intro c b c' hc hrun
  obtain ⟨⟨a, c₁⟩, h₁, h₂⟩ := Option.bind_eq_some_iff.mp hrun
  obtain ⟨hc₁, ha⟩ := h c a c₁ hc h₁
  exact hf a ha c₁ b c' hc₁ h₂

theorem tooDeep : Meets S (.tooDeep : Recall α) Q := fun _ _ _ _ h => nomatch h

end Meets
end Recall

def Ends (T : Error → Prop) (Q : α → Prop) : Except Error α → Prop
  | .ok a => Q a
  | .error e => T e

namespace Infer
variable {m : Infer α} {f : α → Infer β} {Q Q' : α → Prop} {R : β → Prop}

/-- From a memory with the property `S` the inference leads to another; its result has the property `Q`, or its fault
    the property `T`. -/
def Meets (S : ReturnCache → Prop) (T : Error → Prop) (m : Infer α) (Q : α → Prop) : Prop :=
  Recall.Meets S m.run (Ends T Q)

namespace Meets

theorem pure {a : α} (h : Q a) : Meets S T (Pure.pure a) Q := Recall.Meets.pure (Q := Ends T Q) h

theorem throw {e : Error} (h : T e) : Meets S T (MonadExcept.throw e : Infer α) Q :=
  Recall.Meets.pure (Q := Ends T Q) h

theorem lift {x : Except Error α} (h : Ends T Q x) : Meets S T (liftM x) Q := Recall.Meets.pure h

theorem mono (h : m.Meets S T Q) (hQ : ∀ a, Q a → Q' a) : m.Meets S T Q' :=
  Recall.Meets.mono h fun r hr => match r, hr with
    | .ok a, ha => hQ a ha
    | .error _, he => he

theorem bind (h : m.Meets S T Q) (hf : ∀ a, Q a → (f a).Meets S T R) : (m >>= f).Meets S T R :=
  Recall.Meets.bind h fun r hr => match r, hr with
    | .ok a, ha => hf a ha
    | .error _, he => Recall.Meets.pure he

theorem ofRecall {x : Recall α} (h : x.Meets S Q) : Meets S T (liftM x) Q := by
  intro c r c' hc hrun
  obtain ⟨⟨a, _⟩, h₁, h₂⟩ := Option.bind_eq_some_iff.mp hrun
  cases h₂
  exact h c a _ hc h₁

theorem get : Meets S T (MonadState.get : Infer ReturnCache) S := by
  intro c r c' hc hrun
  cases hrun
  exact ⟨hc, hc⟩

end Meets
end Infer

namespace Check.Checking
variable {m : Checking α} {f : α → Checking β} {Q Q' : α → Prop} {R : β → Prop}

/-- From a memory with the property `S` a check that is passed leads to another, and its result has the property
    `Q`. -/
def Meets (S : ReturnCache → Prop) (m : Checking α) (Q : α → Prop) : Prop :=
  ∀ c a c', S c → m c = .ok (a, c') → S c' ∧ Q a

namespace Meets
open Stateful

variable {e : Error} {x : Except Error α} {failed : Prop} {a : α}

theorem pure (h : Q a) : Meets S (Pure.pure a) Q := by
  intro c _ _ hc hrun
  cases hrun
  exact ⟨hc, h⟩

theorem throw : Meets S (MonadExcept.throw e : Checking α) Q := fun _ _ _ _ h => nomatch h

theorem throwBind : Meets S (MonadExcept.throw e >>= f) R := fun _ _ _ _ h => nomatch h

theorem pureBind (h : (f a).Meets S R) : Meets S (Pure.pure a >>= f) R := h

theorem mono (h : m.Meets S Q) (hQ : ∀ a, Q a → Q' a) : m.Meets S Q' :=
  fun c a c' hc hrun => ⟨(h c a c' hc hrun).1, hQ a (h c a c' hc hrun).2⟩

theorem bind (h : m.Meets S Q) (hf : ∀ a, Q a → (f a).Meets S R) : (m >>= f).Meets S R := by
  intro c b c' hc hrun
  obtain ⟨a, c₁, h₁, h₂⟩ := bind_eq_ok.mp hrun
  obtain ⟨hc₁, ha⟩ := h c a c₁ hc h₁
  exact hf a ha c₁ b c' hc₁ h₂

/-- A computation without a memory: what follows from its success can be used after it. -/
theorem liftBind (hf : ∀ a, x = .ok a → (f a).Meets S R) : (liftM x >>= f).Meets S R := by
  intro c b c' hc hrun
  obtain ⟨a, c₁, h₁, h₂⟩ := bind_eq_ok.mp hrun
  obtain ⟨hx, rfl⟩ := lift_eq_ok.mp h₁
  exact hf a hx _ b c' hc h₂

theorem lift (h : ∀ a, x = .ok a → Q a) : Meets S (liftM x) Q := by
  intro c a c' hc hrun
  obtain ⟨hx, rfl⟩ := lift_eq_ok.mp hrun
  exact ⟨hc, h a hx⟩

theorem check [Decidable failed] {k : Unit → Checking β} (h : ¬failed → (k ()).Meets S R) :
    (if failed then MonadExcept.throw e >>= k else k ()).Meets S R := by
  intro c b c' hc hrun
  obtain ⟨hpassed, hk⟩ := check_eq_ok.mp hrun
  exact h hpassed c b c' hc hk

/-- A check that has to be passed in the end. -/
theorem checkLast [Decidable failed] {Q : Unit → Prop} (h : ¬failed → Q ()) :
    Meets S (if failed then MonadExcept.throw e else Pure.pure ()) Q := by
  split
  · exact .throw
  case isFalse hpassed => exact .pure (h hpassed)

theorem forM {γ : Type} {g : γ → Checking Unit} {Q : γ → Prop} {l : List γ} (h : ∀ x ∈ l, Meets S (g x) fun _ => Q x) :
    Meets S (l.forM g) fun _ => ∀ x ∈ l, Q x := by
  induction l with
  | nil => exact .pure nofun
  | cons x l ih =>
    refine (h x List.mem_cons_self).bind fun _ hx => ?_
    exact (ih fun y hy => h y (List.mem_cons_of_mem _ hy)).mono fun _ hl => List.forall_mem_cons.mpr ⟨hx, hl⟩

theorem ofRecall {x : Recall α} (h : x.Meets S Q) : Meets S (.ofRecall x) Q := by
  intro c a c' hc hrun
  unfold Checking.ofRecall at hrun
  split at hrun
  case h_1 r hx =>
    cases hrun
    exact h c a c' hc hx
  · exact nomatch hrun

theorem ofInfer {x : Infer α} (h : x.Meets S T Q) : Meets S (.ofInfer x) Q :=
  (ofRecall h).bind fun r hr => match r, hr with
    | .ok _, ha => .pure ha
    | .error _, _ => .throw

end Meets
end Check.Checking
end

/-! ### Declared and inferred results -/

section
variable {P : Prop} {T : Error → Prop} {definitions : List Definition} {d : Definition}

theorem meets_remember (hdistinct : Definition.Distinct definitions) (hd : d ∈ definitions)
    (hinfo : P → d.Gives info) :
    Infer.Meets (ReturnCache.Sound P definitions) T (liftM (ReturnCache.remember d.path info))
      fun info => P → d.Gives info := by
  refine .ofRecall fun c a c' hc hrun => ?_
  cases hrun
  exact ⟨hc.cons hdistinct hd hinfo, hinfo⟩

/-- What a definition is found to return is what it may be said to return; `infer` is asked only about a value that is
    not declared. -/
theorem meets_returnInfo {infer : List String → Definition → Recall Kind} {busy : List String}
    (hdistinct : Definition.Distinct definitions) (hd : d ∈ definitions)
    (hT : ∀ e, ReturnInfo.declared? d = .error e → T e)
    (hinfer : ReturnInfo.declared? d = .ok none → d.hasValue = true →
      ∀ busy, (infer busy d).Keeps (ReturnCache.Sound P definitions)) :
    Infer.Meets (ReturnCache.Sound P definitions) T (d.returnInfo infer busy) fun info => P → d.Gives info := by
  refine .bind .get fun cache hcache => ?_
  split
  case h_1 info hlookup => exact .pure fun hP => hcache hP d hd info hlookup
  case h_2 =>
    refine .bind (.lift (Q := fun r => ReturnInfo.declared? d = .ok r) ?_) fun declared hdeclared => ?_
    · cases h : ReturnInfo.declared? d with
      | error e => exact hT e h
      | ok r => rfl
    · cases declared with
      | some info => exact meets_remember hdistinct hd fun _ => by simp [Definition.Gives, hdeclared]
      | none =>
        dsimp only
        split
        case isTrue hvoid => exact meets_remember hdistinct hd fun _ => by simp [Definition.Gives, hdeclared, hvoid]
        case isFalse hvalue =>
          have hgives (k : Kind) : d.Gives (.value k) := by simp [Definition.Gives, hdeclared, hvalue, ReturnInfo.value]
          split
          · exact .pure fun _ => hgives _
          · have hhas : d.hasValue = true := by simpa [Definition.hasValue, hdeclared] using hvalue
            exact (Infer.Meets.ofRecall (hinfer hdeclared hhas _)).bind fun k _ =>
              meets_remember hdistinct hd fun _ => hgives k

end

end FlatCode
