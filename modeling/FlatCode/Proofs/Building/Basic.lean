import FlatCode.Lower.Program
import FlatCode.Proofs.Building.Running
import FlatCode.Proofs.Narrowing

/-! Parts of lowering that cannot fail, with what their code does. `Builds` says that a part of lowering succeeds, how many
    slots and how much room it takes, and which flows its code leads to; the rules put parts together as lowering does. -/

namespace FlatCode

namespace Machine

def Output.failed (o : Output) (message : String) : Result :=
  { value := some Lower.failureCode, output := o.write { newline := true, stderr := true } message }

/-- The machine has the first `n` slots, and no more than a run may have. -/
structure State.Roomy (m : State) (n : Nat) : Prop where
  slots : n ≤ m.slots.size
  few : m.slots.size ≤ maxSlots

section
variable {m : State} {n j k : Nat} {w : Word} {rest : List Word}

theorem State.Roomy.toNat_ofNat (h : m.Roomy n) (hk : k < n) : (UInt64.ofNat k).toNat = k :=
  UInt64.toNat_ofNat_of_lt' (Nat.lt_of_lt_of_le hk (Nat.le_trans h.slots (Nat.le_trans h.few (by decide))))

theorem State.Roomy.stored (h : m.Roomy n) : (m.stored k w rest).Roomy n := by
  have hsize : (m.stored k w rest).slots.size = m.slots.size := Array.size_setIfInBounds
  exact ⟨hsize ▸ h.slots, hsize ▸ h.few⟩

theorem State.Roomy.slot_stored (h : m.Roomy n) (hk : k < n) : (m.stored k w rest).slot k = w := by
  refine State.slot_stored ?_
  rw [HasSlot, h.toNat_ofNat hk]
  exact Nat.lt_of_lt_of_le hk h.slots

theorem State.Roomy.slot_stored_ne (h : m.Roomy n) (hj : j < n) (hk : k < n) (hne : j ≠ k) :
    (m.stored k w rest).slot j = m.slot j := by
  rw [slot, slot, State.stored, h.toNat_ofNat hj, h.toNat_ofNat hk, Array.getD_eq_getD_getElem?,
    Array.getElem?_setIfInBounds_ne hne.symm, Array.getD_eq_getD_getElem?]

end
end Machine

namespace Lower
open Stateful
open Machine (Env Flow Leads Loops)
open Source (Scalar word truth holds result?)

/-- What is known of some code: the flows that it leads to from states of the machine. -/
abbrev Behaviour := Env → Machine.State → Flow → Prop

namespace Behaviour

def skips : Behaviour := fun _ m f => f = .next m

def pushes (w : Machine.State → Word) : Behaviour := fun _ m f => f = .next { m with stack := w m :: m.stack }

def stores (k : Nat) : Behaviour := fun _ m f => ∃ w rest, m.stack = w :: rest ∧ f = .next (m.stored k w rest)

def computes (g : Word → Word → Word) : Behaviour := fun _ m f =>
  ∃ a b rest, m.stack = b :: a :: rest ∧ f = .next { m with stack := g a b :: rest }

def calculates (op : ArithmeticOp) (k : Scalar) : Behaviour := fun _ m f =>
  ∃ a b x rest, m.stack = word b :: word a :: rest ∧ k.Holds a ∧ k.Holds b ∧ result? op k a b = some x ∧
    f = .next { m with stack := word x :: rest }

def compares (op : ComparisonOp) (k : Scalar) : Behaviour := fun _ m f =>
  ∃ a b rest, m.stack = word b :: word a :: rest ∧ k.Holds a ∧ k.Holds b ∧
    f = .next { m with stack := word (truth (holds op a b)) :: rest }

def reads : Behaviour := fun _ m f =>
  ∃ address w rest, m.stack = address :: rest ∧ m.At address w ∧ f = .next { m with stack := w :: rest }

def prints (mode : PrintMode) (i : Nat) : Behaviour := fun env m f =>
  ∃ text, i < capacity ∧ env.strings[i]? = some text ∧ f = .next { m with output := m.output.write mode text }

def returns : Behaviour := fun _ m f =>
  ∃ w rest, m.stack = w :: rest ∧ f = .halt (.ok { value := some w, output := m.output })

def fails (message : String) : Behaviour := fun _ m f => f = .halt (.ok (m.output.failed message))

/-- A number in a slot is passed if it is not negative; else a message is reported. -/
def refusesNegative (k : Scalar) (slot : Nat) (message : String) : Behaviour := fun env m f =>
  ∃ v, m.slot slot = word v ∧ k.Holds v ∧ (0 ≤ v ∧ f = .next m ∨ v < 0 ∧ fails message env m f)

/-- One code after the other; the second one is not run if the first one stops. -/
inductive AndThen (R S : Behaviour) : Env → Machine.State → Flow → Prop
  | next {env m m' f} (h : R env m (.next m')) (h' : S env m' f) : AndThen R S env m f
  | stop {env m f} (h : R env m f) (hf : f.Stops) : AndThen R S env m f

/-- A word is popped, and the code is run if it is not zero. -/
inductive IfNonzero (R : Behaviour) : Env → Machine.State → Flow → Prop
  | skip {env m rest} (hm : m.stack = 0 :: rest) : IfNonzero R env m (.next { m with stack := rest })
  | enter {env m w rest f} (hm : m.stack = w :: rest) (hw : w ≠ 0) (h : R env { m with stack := rest } f) :
    IfNonzero R env m f

/-- A loop: `C` leaves the word that decides whether `R` is run once more. -/
inductive Repeats (C R : Behaviour) : Env → Machine.State → Flow → Prop
  | done {env m m₁ rest} (hc : C env m (.next m₁)) (hm : m₁.stack = 0 :: rest) :
    Repeats C R env m (.next { m₁ with stack := rest })
  | pass {env m m₁ m₂ w rest f} (hc : C env m (.next m₁)) (hm : m₁.stack = w :: rest) (hw : w ≠ 0)
    (hr : R env { m₁ with stack := rest } (.next m₂)) (hrest : Repeats C R env m₂ f) : Repeats C R env m f

/-- A loop that is left as soon as `T` leaves a word that is not zero; `A` is run if it ends by itself. -/
inductive Seeks (C T N A : Behaviour) : Env → Machine.State → Flow → Prop
  | done {env m m₁ rest f} (hc : C env m (.next m₁)) (hm : m₁.stack = 0 :: rest)
    (ha : A env { m₁ with stack := rest } f) (hf : ∀ waiting m', f ≠ .exit waiting m') : Seeks C T N A env m f
  | found {env m m₁ m₂ w v rest rest'} (hc : C env m (.next m₁)) (hm : m₁.stack = w :: rest) (hw : w ≠ 0)
    (ht : T env { m₁ with stack := rest } (.next m₂)) (hm₂ : m₂.stack = v :: rest') (hv : v ≠ 0) :
    Seeks C T N A env m (.next { m₂ with stack := rest' })
  | pass {env m m₁ m₂ m₃ w rest rest' f} (hc : C env m (.next m₁)) (hm : m₁.stack = w :: rest) (hw : w ≠ 0)
    (ht : T env { m₁ with stack := rest } (.next m₂)) (hm₂ : m₂.stack = 0 :: rest')
    (hn : N env { m₂ with stack := rest' } (.next m₃)) (hrest : Seeks C T N A env m₃ f) : Seeks C T N A env m f

section
variable {env : Env} {C R T N A : Behaviour} {c p t n a : Piece} {m : Machine.State} {f : Flow}

theorem AndThen.leads {S : Behaviour} {q : Piece} (h : AndThen R S env m f) (hp : ∀ m f, R env m f → Leads env p m f)
    (hq : ∀ m f, S env m f → Leads env q m f) : Leads env (p.seq q) m f := by
  cases h with
  | next h h' => exact (hp _ _ h).seq (hq _ _ h')
  | stop h hf => exact (hp _ _ h).seq_stops hf

theorem IfNonzero.leads (h : IfNonzero R env m f) (hp : ∀ m f, R env m f → Leads env p m f) :
    Leads env (.guard p) m f := by
  cases h with
  | skip hm => exact .guard_skip hm
  | enter hm hw h => exact .guard_enter hm hw (hp _ _ h)

theorem Repeats.leads (h : Repeats C R env m f) (hc : ∀ m f, C env m f → Leads env c m f)
    (hp : ∀ m f, R env m f → Leads env p m f) : Leads env (.loop c p) m f := by
  suffices hloops : Loops env c p m f from hloops.leads
  induction h with
  | done h hm => exact .done (hc _ _ h) hm
  | pass h hm hw hr _ ih => exact .pass (hc _ _ h) hm hw (hp _ _ hr) ih

/-- The jump out of the loop is an exit to the end of its scope. -/
theorem Seeks.leads (h : Seeks C T N A env m f) (hc : ∀ m f, C env m f → Leads env c m f)
    (ht : ∀ m f, T env m f → Leads env t m f) (hn : ∀ m f, N env m f → Leads env n m f)
    (ha : ∀ m f, A env m f → Leads env a m f) : Leads env (.loopUntil c t n a) m f := by
  have hloops : (∃ m', Loops env c (t.seq ((Piece.guard (.exit 0)).seq n)) m (.next m') ∧ A env m' f ∧
        ∀ waiting m', f ≠ .exit waiting m') ∨
      ∃ m', Loops env c (t.seq ((Piece.guard (.exit 0)).seq n)) m (.exit 0 m') ∧ f = .next m' := by
    induction h with
    | done h hm ha hf => exact .inl ⟨_, .done (hc _ _ h) hm, ha, hf⟩
    | found h hm hw h' hm₂ hv =>
      refine .inr ⟨_, .leave (hc _ _ h) hm hw ?_ trivial, rfl⟩
      exact (ht _ _ h').seq (.seq_stops (.guard_enter hm₂ hv .exit) trivial)
    | pass h hm hw h' hm₂ h'' _ ih =>
      have hguard : Leads env (.guard (.exit 0)) _ _ := .guard_skip hm₂
      have hbody := (ht _ _ h').seq (hguard.seq (hn _ _ h''))
      rcases ih with ⟨m', hrest, ha, hf⟩ | ⟨m', hrest, hf⟩
      · exact .inl ⟨m', .pass (hc _ _ h) hm hw hbody hrest, ha, hf⟩
      · exact .inr ⟨m', .pass (hc _ _ h) hm hw hbody hrest, hf⟩
  rcases hloops with ⟨m', hloop, hafter, hf⟩ | ⟨m', hloop, rfl⟩
  · have hall := hloop.leads.seq (ha _ _ hafter)
    cases f with
    | next m'' => exact hall.scope (.inl rfl)
    | exit waiting m'' => exact absurd rfl (hf waiting m'')
    | halt r => exact hall.scope_halt
    | timeout =>
      obtain ⟨least, h⟩ := hall
      exact (h least (Nat.le_refl _) 0).elim
  · exact (hloop.leads.seq_stops trivial).scope (.inr ⟨0, rfl⟩)

end
end Behaviour

theorem infer_of_run {α : Type} {i : Infer α} {a : α} {s : State} {cache : ReturnCache}
    (h : i.run s.cache = some (.ok a, cache)) : infer i s = .ok (a, { s with cache }) := by
  rw [infer, h]

theorem size_intern_le (strings : Array String) (text : String) : (intern strings text).2.size ≤ strings.size + 1 := by
  unfold intern
  split
  · exact Nat.le_succ _
  · exact Nat.le_of_eq (Array.size_push ..)

/-- From `s` to `t` the code grows by a piece without exits. In the end `n` slots are taken, of which one that is not
    among the first `top - 1` is stored to, and there are not more than `cost` new instructions and strings. -/
structure Adds (s : State) (p : Piece) (t : State) (n top cost : Nat) : Prop extends Extends s p t where
  closed : ∀ k, p.exits k = []
  next : t.nextSlot = n
  stores : 0 < top → ∃ k < n, top ≤ k + 1 ∧ p.Stores k
  size : t.code.size + t.strings.size ≤ s.code.size + s.strings.size + cost

/-- Where `n` slots are taken, `x` succeeds and takes no more. -/
def Succeeds {α : Type} (n : Nat) (x : Lowering α) : Prop :=
  ∀ s : State, s.nextSlot = n → ∃ a t, x s = .ok (a, t) ∧ t.nextSlot = n

namespace Succeeds
variable {n : Nat} {α β : Type} {x : Lowering α} {f : α → Lowering β}

theorem bind (hx : Succeeds n x) (hf : ∀ a, Succeeds n (f a)) : Succeeds n (x >>= f) := by
  intro s hs
  obtain ⟨a, t, hxs, ht⟩ := hx s hs
  obtain ⟨b, u, hft, hu⟩ := hf a t ht
  exact ⟨b, u, bind_eq_ok.mpr ⟨a, t, hxs, hft⟩, hu⟩

theorem pure {a : α} : Succeeds n (Pure.pure a : Lowering α) := fun s hs => ⟨a, s, rfl, hs⟩

theorem emitWith {op : Opcode} {imm : UInt64} : Succeeds n (Lower.emitWith op imm) := fun _ hs => ⟨(), _, rfl, hs⟩

theorem openJump {op : Opcode} : Succeeds n (Lower.openJump op) := fun _ hs => ⟨_, _, rfl, hs⟩

theorem closeJump {position : Nat} : Succeeds n (Lower.closeJump position) := fun _ hs => ⟨(), _, rfl, hs⟩

theorem whenNonzero (hx : Succeeds n x) : Succeeds n (Lower.whenNonzero x) :=
  openJump.bind fun _ => hx.bind fun _ => closeJump.bind fun _ => pure

theorem loop (hx : Succeeds n x) (hf : ∀ a, Succeeds n (f a)) : Succeeds n (Lower.loop x f) := by
  have hhere : Succeeds n here := fun s hs => ⟨_, s, rfl, hs⟩
  exact hhere.bind fun _ => hx.bind fun a => openJump.bind fun _ => (hf a).bind fun _ => emitWith.bind fun _ =>
    closeJump.bind fun _ => pure

theorem loopUntil {cond test next after : Lowering Unit} (hc : Succeeds n cond) (ht : Succeeds n test)
    (hn : Succeeds n next) (ha : Succeeds n after) : Succeeds n (Lower.loopUntil cond test next after) := by
  have hbody : Succeeds n (do test; let found ← Lower.whenNonzero (Lower.openJump .jump); next; return found) :=
    ht.bind fun _ => openJump.whenNonzero.bind fun _ => hn.bind fun _ => pure
  exact (hc.loop fun _ => hbody).bind fun _ => ha.bind fun _ => closeJump

end Succeeds

/-- Where `n` slots are taken, `x` succeeds with `a`, and its code behaves as `R` says if the run has its strings. -/
def Builds {α : Type} (n : Nat) (x : Lowering α) (a : α) (n' top cost : Nat) (R : Behaviour) : Prop :=
  ∀ s : State, s.nextSlot = n → ∃ p t, x s = .ok (a, t) ∧ Adds s p t n' top cost ∧
    ∀ env : Env, env.strings.size < capacity → t.strings.toList <+: env.strings.toList →
      ∀ m f, R env m f → Leads env p m f

variable {k : Nat} {op : Opcode} {message : String} {imm : UInt64}

section
variable {s t u : State} {p q : Piece} {n n₁ n₂ n' top top₁ top₂ top' cost cost₁ cost₂ cost' : Nat} {α β : Type}
  {x : Lowering α} {f : α → Lowering β} {a : α} {b : β} {R R' S C T N A : Behaviour}

theorem stores_max (hn : n₁ ≤ n₂) (hp : 0 < top₁ → ∃ k < n₁, top₁ ≤ k + 1 ∧ p.Stores k)
    (hq : 0 < top₂ → ∃ k < n₂, top₂ ≤ k + 1 ∧ q.Stores k) (htop : 0 < max top₁ top₂) :
    ∃ k < n₂, max top₁ top₂ ≤ k + 1 ∧ (p.Stores k ∨ q.Stores k) := by
  rcases Nat.le_total top₁ top₂ with hle | hle
  · rw [Nat.max_eq_right hle] at htop ⊢
    obtain ⟨k, hk, hle, hstores⟩ := hq htop
    exact ⟨k, hk, hle, .inr hstores⟩
  · rw [Nat.max_eq_left hle] at htop ⊢
    obtain ⟨k, hk, hle, hstores⟩ := hp htop
    exact ⟨k, Nat.lt_of_lt_of_le hk hn, hle, .inl hstores⟩

theorem Adds.nop (s : State) : Adds s .nop s s.nextSlot 0 0 where
  toExtends := .nop s
  closed _ := rfl
  next := rfl
  stores := nofun
  size := Nat.le_refl _

theorem Adds.seq (h : Adds s p t n₁ top₁ cost₁) (h' : Adds t q u n₂ top₂ cost₂) :
    Adds s (p.seq q) u n₂ (max top₁ top₂) (cost₁ + cost₂) where
  toExtends := h.toExtends.seq h'.toExtends
  closed k := by rw [Piece.exits, h.closed, h'.closed, List.nil_append]
  next := h'.next
  stores htop := stores_max (h'.next ▸ h.next ▸ h'.slots) h.stores h'.stores htop
  size := by
    have := h.size
    have := h'.size
    omega

namespace Builds

theorem mono (h : Builds n x a n₁ top₁ cost₁ R) (hn : n₁ = n') (htop : top' ≤ top₁) (hcost : cost₁ ≤ cost')
    (hR : ∀ env m f, R' env m f → R env m f) : Builds n x a n' top' cost' R' := by
  subst hn
  intro s hs
  obtain ⟨p, t, hx, hp, hdoes⟩ := h s hs
  refine ⟨p, t, hx, { hp with stores := fun h => ?_, size := ?_ }, fun env hsize hstrings m f hf => ?_⟩
  · obtain ⟨k, hk, hle, hstores⟩ := hp.stores (Nat.lt_of_lt_of_le h htop)
    exact ⟨k, hk, Nat.le_trans htop hle, hstores⟩
  · exact Nat.le_trans hp.size (Nat.add_le_add_left hcost _)
  · exact hdoes env hsize hstrings m f (hR env m f hf)

theorem pure : Builds n (Pure.pure a : Lowering α) a n 0 0 .skips := by
  rintro s rfl
  refine ⟨.nop, s, rfl, .nop s, fun env _ _ m f hf => ?_⟩
  cases hf
  exact .nop

theorem bind (hx : Builds n x a n₁ top₁ cost₁ R) (hf : Builds n₁ (f a) b n₂ top₂ cost₂ S) :
    Builds n (x >>= f) b n₂ (max top₁ top₂) (cost₁ + cost₂) (.AndThen R S) := by
  intro s hs
  obtain ⟨p, t, hxs, hp, hdoes⟩ := hx s hs
  obtain ⟨q, u, hft, hq, hdoes'⟩ := hf t hp.next
  refine ⟨p.seq q, u, bind_eq_ok.mpr ⟨a, t, hxs, hft⟩, hp.seq hq, fun env hsize hstrings m g hg => ?_⟩
  exact hg.leads (hdoes env hsize (hq.strings.trans hstrings)) (hdoes' env hsize hstrings)

theorem map {g : α → β} (hx : Builds n x a n' top cost R) :
    Builds n (x >>= fun a => Pure.pure (g a)) (g a) n' top cost R := by
  intro s hs
  obtain ⟨p, t, hxs, hp, hdoes⟩ := hx s hs
  exact ⟨p, t, bind_eq_ok.mpr ⟨a, t, hxs, rfl⟩, hp, hdoes⟩

theorem lift {r : Except Error α} (hr : r = .ok a) (hf : Builds n (f a) b n' top cost R) :
    Builds n (liftM r >>= f) b n' top cost R := by
  subst hr
  exact hf

theorem check {failed : Prop} [Decidable failed] {e : Error} {k : Unit → Lowering β} (h : ¬failed)
    (hk : Builds n (k ()) b n' top cost R) : Builds n (if failed then throw e >>= k else k ()) b n' top cost R := by
  rw [if_neg h]
  exact hk

/-- A string that is looked up, and added if it is not there: what follows knows its index. -/
theorem intern {text : String} {f : Nat → Lowering β} {R : Nat → Behaviour}
    (hf : ∀ i, Builds n (f i) b n' top cost (R i))
    (hR : ∀ i env m g, i < capacity → env.strings[i]? = some text → R' env m g → R i env m g) :
    Builds n (internText text >>= f) b n' top (cost + 1) R' := by
  intro s hs
  obtain ⟨i, t, ht⟩ : ∃ i t, internText text s = .ok (i, t) := ⟨_, _, rfl⟩
  obtain ⟨hnop, hslots, hi⟩ := internText_inv ht
  obtain ⟨p, u, hu, hp, hdoes⟩ := hf i t (hslots.trans hs)
  refine ⟨p, u, bind_eq_ok.mpr ⟨i, t, ht, hu⟩, ⟨hnop.after_nop hp.toExtends, hp.closed, hp.next, hp.stores, ?_⟩, ?_⟩
  · have hcode : t.code.size = s.code.size := hnop.size
    have hstrings : t.strings.size ≤ s.strings.size + 1 := by
      cases ht
      exact size_intern_le ..
    have := hp.size
    omega
  · intro env hsize hstrings m g hg
    have htext : env.strings[i]? = some text := by
      rw [← Array.getElem?_toList] at hi ⊢
      have hlt := (List.getElem?_eq_some_iff.mp hi).1
      rw [List.prefix_iff_getElem?.mp (hp.strings.trans hstrings) i hlt, ← List.getElem?_eq_getElem hlt, hi]
    have hlt := (Array.getElem?_eq_some_iff.mp htext).1
    exact hdoes env hsize hstrings m g (hR i env m g (Nat.lt_trans hlt hsize) htext hg)

theorem succeeds (h : Builds n x a n top cost R) : Succeeds n x := fun s hs =>
  have ⟨_, t, hx, hp, _⟩ := h s hs
  ⟨a, t, hx, hp.next⟩

theorem whenNonzero (hx : Builds n x a n top cost R) :
    Builds n (Lower.whenNonzero x) a n top (cost + 1) (.IfNonzero R) := by
  intro s hs
  obtain ⟨a', t, ht, -⟩ := hx.succeeds.whenNonzero s hs
  obtain ⟨s₁, t₁, hbody, hsize₁, hs₁, ht₁, -, hguard⟩ := whenNonzero_inv ht
  obtain ⟨p, t₁', hbody', hp, hdoes⟩ := hx s₁ (hs₁.slots.trans hs)
  cases hbody.symm.trans hbody'
  have hext := hguard p hp.toExtends
  refine ⟨.guard p, t, ht, ⟨hext, fun k => hp.closed (k + 1), ht₁.slots.trans hp.next, hp.stores, ?_⟩, ?_⟩
  · have hsize := hp.size
    rw [hp.toGrows.size] at hsize
    rw [hext.size, ht₁.strings, ← hs₁.strings, Piece.size]
    omega
  · rw [ht₁.strings]
    exact fun env hsize hstrings m f hf => hf.leads (hdoes env hsize hstrings)

theorem loop {x : Lowering Unit} {f : Unit → Lowering β} (hx : Builds n x () n top₁ cost₁ C)
    (hf : Builds n (f ()) b n top₂ cost₂ R) :
    Builds n (Lower.loop x f) b n (max top₁ top₂) (cost₁ + cost₂ + 2) (.Repeats C R) := by
  intro s hs
  obtain ⟨b', t, ht, -⟩ := hx.succeeds.loop (fun _ => hf.succeeds) s hs
  obtain ⟨⟨⟩, t₁, s₂, t₂, hcond, hbody, hsize₂, hs₂, ht₂, -, hloop⟩ := loop_inv ht
  obtain ⟨p, t₁', hcond', hp, hcdoes⟩ := hx s hs
  cases hcond.symm.trans hcond'
  obtain ⟨q, t₂', hbody', hq, hdoes⟩ := hf s₂ (hs₂.slots.trans hp.next)
  cases hbody.symm.trans hbody'
  have hext := hloop p q hp.toExtends hq.toExtends
  refine ⟨.loop p q, t, ht, ⟨hext, fun k => ?_, ht₂.slots.trans hq.next, ?_, ?_⟩, ?_⟩
  · rw [Piece.exits, hp.closed, hq.closed, List.nil_append]
  · exact stores_max (Nat.le_refl n) hp.stores hq.stores
  · have hpsize := hp.size
    have hqsize := hq.size
    rw [hp.toGrows.size] at hpsize
    rw [hq.toGrows.size, hs₂.strings] at hqsize
    rw [hext.size, ht₂.strings, Piece.size]
    omega
  · rw [ht₂.strings]
    intro env hsize hstrings m f hf
    have hbefore : t₁.strings.toList <+: env.strings.toList := (hs₂.strings ▸ hq.strings).trans hstrings
    exact hf.leads (hcdoes env hsize hbefore) (hdoes env hsize hstrings)

/-- A loop that is left from within. -/
theorem loopUntil {cond test next after : Lowering Unit} {cost₃ : Nat} (hc : Builds n cond () n 0 cost C)
    (ht : Builds n test () n 0 cost₁ T) (hn : Builds n next () n 0 cost₂ N) (ha : Builds n after () n 0 cost₃ A) :
    Builds n (Lower.loopUntil cond test next after) () n 0 (cost + cost₁ + cost₂ + cost₃ + 4) (.Seeks C T N A) := by
  intro s hs
  obtain ⟨⟨⟩, u, hu, -⟩ := Succeeds.loopUntil hc.succeeds ht.succeeds hn.succeeds ha.succeeds s hs
  obtain ⟨t₁, s₂, t₂, s₃, t₃, s₄, t₄, hcond, htest, hnext, hafter, h₁, h₂, h₃, h₄, hext⟩ := loopUntil_inv hu
  obtain ⟨pc, t₁', hcond', hpc, hcdoes⟩ := hc s hs
  cases hcond.symm.trans hcond'
  obtain ⟨pt, t₂', htest', hpt, htdoes⟩ := ht s₂ (h₁.slots.trans hpc.next)
  cases htest.symm.trans htest'
  obtain ⟨pn, t₃', hnext', hpn, hndoes⟩ := hn s₃ (h₂.slots.trans hpt.next)
  cases hnext.symm.trans hnext'
  obtain ⟨pa, t₄', hafter', hpa, hadoes⟩ := ha s₄ (h₃.slots.trans hpn.next)
  cases hafter.symm.trans hafter'
  have hext := hext pc pt pn pa hpc.toExtends hpt.toExtends hpn.toExtends hpa.toExtends fun k =>
    ⟨hpc.closed k, hpt.closed k, hpn.closed k, hpa.closed k⟩
  refine ⟨_, u, hu, ⟨hext, fun _ => rfl, h₄.slots.trans hpa.next, nofun, ?_⟩, ?_⟩
  · have hcsize := hpc.size
    have htsize := hpt.size
    have hnsize := hpn.size
    have hasize := hpa.size
    rw [hpc.toGrows.size] at hcsize
    rw [hpt.toGrows.size, h₁.strings] at htsize
    rw [hpn.toGrows.size, h₂.strings] at hnsize
    rw [hpa.toGrows.size, h₃.strings] at hasize
    rw [hext.size, h₄.strings]
    simp only [Piece.loopUntil, Piece.size]
    omega
  · rw [h₄.strings]
    intro env hsize hstrings m f hf
    have hstrings₃ : t₃.strings.toList <+: env.strings.toList := (h₃.strings ▸ hpa.strings).trans hstrings
    have hstrings₂ : t₂.strings.toList <+: env.strings.toList := (h₂.strings ▸ hpn.strings).trans hstrings₃
    have hstrings₁ : t₁.strings.toList <+: env.strings.toList := (h₁.strings ▸ hpt.strings).trans hstrings₂
    exact hf.leads (hcdoes env hsize hstrings₁) (htdoes env hsize hstrings₂) (hndoes env hsize hstrings₃)
      (hadoes env hsize hstrings)

end Builds

theorem builds_op (plain : op.isJump = false)
    (h : ∀ env m f, R env m f → Leads env (.op { op, imm } plain) m f) : Builds n (emitWith op imm) () n 0 1 R := by
  intro s hs
  obtain ⟨t, ht⟩ : ∃ t, emitWith op imm s = .ok ((), t) := ⟨_, rfl⟩
  obtain ⟨hext, hsame⟩ := emitWith_inv ht plain
  refine ⟨_, t, ht, ⟨hext, fun _ => rfl, hsame.slots.trans hs, nofun, ?_⟩, fun env _ _ => h env⟩
  rw [hext.size, hsame.strings]
  exact Nat.le_of_eq (Nat.add_right_comm ..)

theorem builds_newSlots : Builds n (newSlots k) n (n + k) 0 0 .skips := by
  rintro s rfl
  obtain ⟨t, ht⟩ : ∃ t, newSlots k s = .ok (s.nextSlot, t) := ⟨_, rfl⟩
  obtain ⟨hext, -, hnext, hstrings⟩ := newSlots_inv ht
  refine ⟨.nop, t, ht, ⟨hext, fun _ => rfl, hnext, nofun, ?_⟩, fun env _ _ m f hf => ?_⟩
  · rw [hext.size, hstrings]
    exact Nat.le_refl _
  · cases hf
    exact .nop

theorem builds_newSlot : Builds n newSlot n (n + 1) 0 0 .skips := builds_newSlots

theorem Builds.fresh {f : Nat → Lowering β} (hf : Builds (n + 1) (f n) b n' top cost R) :
    Builds n (newSlot >>= f) b n' top cost R :=
  Builds.mono (.bind builds_newSlot hf) rfl (Nat.le_max_right ..) (Nat.le_of_eq (Nat.zero_add _)) fun _ _ _ hf => .next rfl hf

theorem builds_load : Builds n (load k) () n 0 1 (.pushes (·.slot k)) := by
  refine builds_op rfl fun env m f hf => ?_
  cases hf
  exact .op fun pc => rfl

theorem builds_store (hk : k < n) : Builds n (store k) () n (k + 1) 1 (.stores k) := by
  intro s hs
  obtain ⟨t, ht⟩ : ∃ t, store k s = .ok ((), t) := ⟨_, rfl⟩
  obtain ⟨hext, hsame⟩ := emitWith_inv ht rfl
  refine ⟨_, t, ht, ⟨hext, fun _ => rfl, hsame.slots.trans hs, fun _ => ⟨k, hk, Nat.le_refl _, rfl⟩, ?_⟩, ?_⟩
  · rw [hext.size, hsame.strings]
    exact Nat.le_of_eq (Nat.add_right_comm ..)
  · rintro env - - m f ⟨w, rest, hm, rfl⟩
    exact .op fun pc => by simp only [Opcode.operation, Machine.perform, Machine.State.pop, hm, Machine.State.stored]

theorem builds_spill : Builds n spill n (n + 1) (n + 1) 1 (.stores n) :=
  .fresh (.map (g := fun _ => n) (builds_store (Nat.lt_succ_self n)))

theorem builds_push {g : UInt64 → Word} (plain : op.isJump = false)
    (hop : op.operation = .push g) : Builds n (emitWith op imm) () n 0 1 (.pushes fun _ => g imm) := by
  refine builds_op plain fun env m f hf => ?_
  cases hf
  exact .op fun pc => by rw [hop]; rfl

theorem builds_computes {g : Word → Word → Word} (plain : op.isJump = false)
    (hop : op.operation = .binary g) : Builds n (emitWith op imm) () n 0 1 (.computes g) := by
  refine builds_op plain ?_
  rintro env m f ⟨a, b, rest, hm, rfl⟩
  exact .op fun pc => by simp only [hop, Machine.perform, Machine.State.pop, hm, Machine.State.push]

theorem builds_loadIndirect : Builds n (emit .loadIndirect) () n 0 1 .reads := by
  refine builds_op rfl ?_
  rintro env m f ⟨address, w, rest, hm, ⟨haligned, hlt, hw⟩, rfl⟩
  refine .op fun pc => ?_
  simp only [Opcode.operation, Machine.perform, Machine.State.pop, hm, Machine.State.atAddress, Machine.State.push]
  rw [if_pos ⟨haligned, hlt⟩, hw]

theorem builds_return (plain : op.isJump = false) (hop : op.operation = .returnValue) :
    Builds n (emitWith op imm) () n 0 1 .returns := by
  refine builds_op plain ?_
  rintro env m f ⟨w, rest, hm, rfl⟩
  exact .finish fun pc => by simp only [hop, Machine.perform, Machine.State.pop, hm]

theorem builds_printString {mode : PrintMode} {i : Nat} :
    Builds n (emitWith .printString (mode.ofString i)) () n 0 1 (.prints mode i) := by
  refine builds_op rfl ?_
  rintro env m f ⟨text, hi, htext, rfl⟩
  refine .op fun pc => ?_
  have hindex : env.strings[(PrintMode.stringIndex (mode.ofString i)).toNat]? = some text := by
    rw [toNat_stringIndex_ofString, Nat.mod_eq_of_lt (Nat.lt_trans hi (by decide)), htext]
  simp only [Opcode.operation, Machine.perform, hindex, Machine.State.write, ofImm_ofString]

section
variable {k : Scalar}

theorem builds_pushInt {v : Int64} (hk : k ≠ .bool) (hv : k.Holds v.toInt) :
    Builds n (pushInt k.width v) () n 0 1 (.pushes fun _ => word v.toInt) := by
  cases k with
  | bool => exact absurd rfl hk
  | i64 | u64 =>
    rw [Source.word_toInt]
    exact builds_push (g := id) rfl rfl
  | i32 =>
    have hrange : v.toInt32.toInt64 = v := by
      apply Int64.toInt_inj.mp
      rw [Int32.toInt_toInt64, Int64.toInt_toInt32]
      exact Scalar.wrap_eq_self hv
    rw [← Source.word_of_inRange hrange]
    exact builds_push (g := fun imm => .ofInt32 imm.toUInt32.toInt32) rfl rfl

theorem builds_arithmetic {op : ArithmeticOp} (hk : k ≠ .bool) :
    Builds n (arithmetic op k.width) () n 0 1 (.calculates op k) := by
  refine builds_op (by cases op <;> cases k <;> rfl) ?_
  rintro env m f ⟨a, b, x, rest, hm, ha, hb, hx, rfl⟩
  refine .op fun pc => (Source.perform_arithmetic (s := { m with pc }) op hk ha hb hm).trans ?_
  rw [hx]
  rfl

theorem builds_compare {op : ComparisonOp} (hk : k ≠ .bool) :
    Builds n (compare op k.width) () n 0 1 (.compares op k) := by
  refine builds_op (by cases op <;> cases k <;> rfl) ?_
  rintro env m f ⟨a, b, rest, hm, ha, hb, rfl⟩
  exact .op fun pc => Source.perform_compare op hk ha hb hm

end

theorem builds_fail : Builds n (fail message) () n 0 4 (.fails message) := by
  refine Builds.mono (.intern (fun i => .bind builds_printString (.bind (builds_push rfl rfl) (builds_return rfl rfl)))
    fun i env m f hi htext hf => ?_) rfl (by omega) (by omega) fun _ _ _ => id
  cases hf
  exact .next ⟨message, hi, htext, rfl⟩ (.next rfl ⟨_, _, rfl, rfl⟩)

/-- Only a negative number fails; an unsigned one is never negative. -/
theorem builds_failIfNegative {k : Scalar} {slot : Nat} (hk : k ≠ .bool) :
    Builds n (failIfNegative k.width slot message) () n 0 8 (.refusesNegative k slot message) := by
  unfold failIfNegative
  split
  case isTrue hwidth =>
    refine Builds.pure.mono rfl (Nat.le_refl _) (by omega) ?_
    rintro env m f ⟨v, -, hv, ⟨-, rfl⟩ | ⟨hneg, -⟩⟩
    · rfl
    · cases k <;> cases hwidth
      exact absurd hv.1 (Int.not_le.mpr hneg)
  case isFalse =>
    refine Builds.mono (.bind builds_load (.bind (builds_pushInt hk k.holds_zero) (.bind (builds_compare hk)
      builds_fail.whenNonzero))) rfl (by omega) (by omega) ?_
    rintro env m f ⟨v, hslot, hv, hcases⟩
    have hstack : word 0 :: m.slot slot :: m.stack = word 0 :: word v :: m.stack := by rw [hslot]
    refine .next rfl (.next rfl (.next ⟨v, 0, m.stack, hstack, hv, k.holds_zero, rfl⟩ ?_))
    rcases hcases with ⟨hle, rfl⟩ | ⟨hlt, hf⟩
    · have hfalse : holds .less v 0 = false := decide_eq_false (Int.not_lt.mpr hle)
      rw [hfalse]
      exact .skip rfl
    · have htrue : holds .less v 0 = true := decide_eq_true hlt
      rw [htrue]
      exact .enter rfl (by decide) hf

end
end Lower
end FlatCode
