import FlatCode.Proofs.Source.Does
import FlatCode.Proofs.Source.Kinds
import FlatCode.Proofs.Source.Yields

/-! The simulation between evaluation and lowered code: the slots of the locals hold the values of the bindings in
    scope, and code changes no slot in use but those of its locals. -/

namespace FlatCode.Source
open Lower

/-! ### Locals and bindings -/

inductive Represents (slots : Array Word) : Locals → Env → Prop
  | nil : Represents slots [] []
  | cons {x l c locals ρ} (kind : l.type.kind = c.kind.kind) (range : c.kind.Holds c.value)
    (slot : slots[l.slot]? = some (word c.value)) (h : Represents slots locals ρ) :
    Represents slots ((x, l) :: locals) ((x, c) :: ρ)

/-- Different locals have different slots, all below `next`. -/
structure Apart (next : Nat) (locals : Locals) : Prop where
  bound : ∀ l ∈ locals, l.2.slot < next
  distinct : locals.Pairwise fun a b => a.2.slot ≠ b.2.slot

/-- From locals with slots below `base`, statements lead to the locals of the scope `Γ`, with slots below `next`. -/
structure Brings (base : Nat) (locals : Locals) (Γ : Kinds) (next : Nat) (locals' : Locals) : Prop where
  typed : Typed locals' Γ
  apart : Apart next locals'
  news : ∃ news, locals' = news ++ locals ∧ ∀ l ∈ news, base ≤ l.2.slot

/-- The slots below `base` hold what they held, but for those of the locals. -/
structure Kept (base : Nat) (locals : Locals) (slots slots' : Array Word) : Prop where
  size : slots'.size = slots.size
  same : ∀ i < base, (∀ l ∈ locals, l.2.slot ≠ i) → slots'[i]? = slots[i]?

variable {ctx' : Context} {eval : Env → Run (Int × Env)} {e : Expr} {α : Type} {f : Int × Env → Run α} {Γ' : Kinds}
  {i next' : Nat} {o : Operand} {p q : Piece} {post : α → List Word → Array Word → Prop}

section
variable {locals news : Locals} {Γ : Kinds} {ρ : Env} {slots slots' slots'' : Array Word} {x : String} {l : Local}
  {base base' next : Nat} {w : Word}

section
variable (h : Represents slots locals ρ)
include h

theorem Represents.kinds (hΓ : Typed locals Γ) : ρ.kinds = Γ := by
  induction h generalizing Γ with
  | nil =>
    cases hΓ
    rfl
  | cons kind _ _ _ ih =>
    cases hΓ with
    | cons _ kind' h' =>
      rw [Env.kinds, List.map_cons, Scalar.kind_inj (kind.symm.trans kind')]
      exact congrArg (_ :: ·) (ih h')

theorem Represents.length : ρ.length = locals.length := by
  induction h with
  | nil => rfl
  | cons _ _ _ _ ih => exact congrArg (· + 1) ih

theorem Represents.lookup (hl : locals.lookup x = some l) :
    ∃ c, ρ.lookup x = some c ∧ l.type.kind = c.kind.kind ∧ c.kind.Holds c.value ∧
      slots[l.slot]? = some (word c.value) := by
  induction h with
  | nil => exact nomatch hl
  | @cons y _ _ _ _ kind range slot _ ih =>
    rw [List.lookup_cons] at hl ⊢
    cases hxy : x == y with
    | true =>
      rw [hxy] at hl
      cases hl
      exact ⟨_, rfl, kind, range, slot⟩
    | false =>
      rw [hxy] at hl
      exact ih hl

theorem Represents.congr (hslots : ∀ l ∈ locals, slots'[l.2.slot]? = slots[l.2.slot]?) :
    Represents slots' locals ρ := by
  induction h with
  | nil => exact .nil
  | cons kind range slot _ ih =>
    rw [List.forall_mem_cons] at hslots
    exact .cons kind range (hslots.1.trans slot) (ih hslots.2)

theorem Represents.store (hi : ∀ l ∈ locals, l.2.slot ≠ i) :
    Represents (slots.setIfInBounds i w) locals ρ :=
  h.congr fun l hl => Array.getElem?_setIfInBounds_ne (hi l hl).symm

/-- An assignment stores to the slot of its local. -/
theorem Represents.set (hapart : Apart next locals) (hl : locals.lookup x = some l) {c : Cell}
    (hc : ρ.lookup x = some c) {n : Int} (hn : c.kind.Holds n) :
    Represents (slots.setIfInBounds l.slot (word n)) locals (ρ.set x n) := by
  obtain ⟨hbound, hdistinct⟩ := hapart
  induction h with
  | nil => exact nomatch hl
  | @cons y l' c' locals ρ kind range slot hrest ih =>
    rw [List.forall_mem_cons] at hbound
    rw [List.pairwise_cons] at hdistinct
    rw [List.lookup_cons] at hl hc
    rw [Env.set]
    cases hxy : x == y with
    | true =>
      rw [hxy] at hl hc
      cases hl
      cases hc
      refine .cons kind hn ?_ (hrest.store fun l hl => (hdistinct.1 l hl).symm)
      obtain ⟨hi, -⟩ := Array.getElem?_eq_some_iff.mp slot
      exact Array.getElem?_setIfInBounds_self_of_lt hi
    | false =>
      rw [hxy] at hl hc
      refine .cons kind range ?_ (ih hl hc hbound.2 hdistinct.2)
      rw [Array.getElem?_setIfInBounds_ne (hdistinct.1 _ (mem_of_lookup hl)).symm]
      exact slot

end

theorem Represents.leave (h : Represents slots (news ++ locals) ρ) : Represents slots locals (ρ.leave locals.length) := by
  rw [Env.leave, h.length, List.length_append, Nat.add_sub_cancel]
  induction news generalizing ρ with
  | nil => exact h
  | cons a news ih =>
    cases h with
    | cons _ _ _ h => exact ih h

theorem Apart.mono (h : Apart next locals) (hle : next ≤ next') : Apart next' locals :=
  ⟨fun l hl => Nat.lt_of_lt_of_le (h.bound l hl) hle, h.distinct⟩

theorem Apart.ne (h : Apart next locals) (hi : next ≤ i) : ∀ l ∈ locals, l.2.slot ≠ i :=
  fun l hl => Nat.ne_of_lt (Nat.lt_of_lt_of_le (h.bound l hl) hi)

theorem Kept.refl : Kept base locals slots slots := ⟨rfl, fun _ _ _ => rfl⟩

theorem Kept.trans (h : Kept base locals slots slots') (h' : Kept base' locals slots' slots'') (hle : base ≤ base') :
    Kept base locals slots slots'' where
  size := h'.size.trans h.size
  same i hi hne := (h'.same i (Nat.lt_of_lt_of_le hi hle) hne).trans (h.same i hi hne)

/-- What keeps the slots with more locals, all of them new, keeps them with less. -/
theorem Kept.narrow (h : Kept base' (news ++ locals) slots slots') (hnews : ∀ l ∈ news, base ≤ l.2.slot)
    (hle : base ≤ base') : Kept base locals slots slots' where
  size := h.size
  same i hi hne := h.same i (Nat.lt_of_lt_of_le hi hle) fun l hl => by
    rcases List.mem_append.mp hl with hl | hl
    · exact (Nat.ne_of_lt (Nat.lt_of_lt_of_le hi (hnews l hl))).symm
    · exact hne l hl

/-- A store to a slot that is new, or that of a local. -/
theorem Kept.store (hi : base ≤ i ∨ ∃ l ∈ locals, l.2.slot = i) :
    Kept base locals slots (slots.setIfInBounds i w) where
  size := Array.size_setIfInBounds
  same j hj hne := by
    refine Array.getElem?_setIfInBounds_ne fun hij => ?_
    subst hij
    rcases hi with hi | ⟨l, hl, hslot⟩
    · exact absurd hj (Nat.not_lt.mpr hi)
    · exact hne l hl hslot

section
variable {locals' : Locals}

theorem Brings.none (hΓ : Typed locals Γ) (hapart : Apart next locals) : Brings base locals Γ next locals :=
  ⟨hΓ, hapart, [], rfl, List.forall_mem_nil _⟩

theorem Brings.trans {locals'' : Locals} (h : Brings base locals Γ next locals')
    (h' : Brings base' locals' Γ' next' locals'') (hle : base ≤ base') : Brings base locals Γ' next' locals'' := by
  obtain ⟨news, rfl, hnews⟩ := h.news
  obtain ⟨news', rfl, hnews'⟩ := h'.news
  refine ⟨h'.typed, h'.apart, news' ++ news, (List.append_assoc ..).symm, fun l hl => ?_⟩
  rcases List.mem_append.mp hl with hl | hl
  · exact Nat.le_trans hle (hnews' l hl)
  · exact hnews l hl

/-- What is kept in the scope that statements lead to is kept outside of it. -/
theorem Brings.keeps (h : Brings base locals Γ next locals') (hkept : Kept base' locals' slots slots') (hle : base ≤ base') :
    Kept base locals slots slots' := by
  obtain ⟨news, rfl, hnews⟩ := h.news
  exact hkept.narrow hnews hle

theorem Brings.leave (h : Brings base locals Γ next locals') (hρ : Represents slots locals' ρ) :
    Represents slots locals (ρ.leave locals.length) := by
  obtain ⟨news, rfl, -⟩ := h.news
  exact hρ.leave

end
end

/-! ### The simulation -/

section
variable (env : Machine.Env) (fuel : Nat)

/-- The strings of the state and its slots are those of the run. -/
structure Fits (size : Nat) (t : State) : Prop where
  strings : t.strings.toList <+: env.strings.toList
  texts : ∀ x ∈ env.strings, x = failureText
  slots : t.nextSlot ≤ size
  small : size < 2 ^ 64

structure Evaluated (base : Nat) (locals : Locals) (kind : Option Scalar) (stack : List Word) (slots : Array Word)
    (r : Int × Env) (stack' : List Word) (slots' : Array Word) : Prop where
  stack : stack' = word r.1 :: stack
  value : ∃ k, kind = some k ∧ k.Holds r.1
  bindings : Represents slots' locals r.2
  kept : Kept base locals slots slots'

/-- A statement has been run, which has left the stack as it was and brought locals into scope. -/
structure Executed (base : Nat) (locals locals' : Locals) (stack : List Word) (slots : Array Word) (ρ : Env)
    (stack' : List Word) (slots' : Array Word) : Prop where
  stack : stack' = stack
  bindings : Represents slots' locals' ρ
  kept : Kept base locals slots slots'

structure TermCode (base : Nat) (locals : Locals) (kind : Option Scalar) (eval : Env → Run (Int × Env)) (o : Operand)
    (t : State) (p : Piece) : Prop where
  operand : o = operandOf kind
  fills : Fills base t.nextSlot p
  does : ∀ ρ stack slots, Fits env slots.size t → Represents slots locals ρ →
    Does (Machine.exec env fuel p) stack slots (eval ρ) (Evaluated base locals kind stack slots)

structure StmtCode (base : Nat) (locals : Locals) (Γ : Kinds) (run : Env → Run Env) (locals' : Locals) (t : State)
    (p : Piece) : Prop where
  scope : Brings base locals Γ t.nextSlot locals'
  fills : Fills base t.nextSlot p
  does : ∀ ρ stack slots, Fits env slots.size t → Represents slots locals ρ →
    Does (Machine.exec env fuel p) stack slots (run ρ) (Executed base locals locals' stack slots)

structure InEntry (T : Scalar) (ctx : Context) : Prop where
  inferrer : Inferrer.Sound T ctx.inferrer
  target : ctx.target = .run (.value T.kind)

structure Emitter.Sound (T : Scalar) (E : Emitter) : Prop where
  expr : ∀ {ctx : Context} {locals : Locals} {Γ : Kinds} {e : Expr} {a : Term} {s : State}, InEntry T ctx →
    Typed locals Γ → Apart s.nextSlot locals → IsTerm T Γ e a →
    Yields (E.expr ctx locals e) s (TermCode env fuel s.nextSlot locals (a.kind? Γ) (a.eval fuel))
  statement : ∀ {ctx : Context} {locals : Locals} {Γ : Kinds} {e : Expr} {c : Stmt} {s : State}, InEntry T ctx →
    Typed locals Γ → Apart s.nextSlot locals → IsStmt T Γ e c →
    Yields (E.statement ctx locals e) s (StmtCode env fuel s.nextSlot locals (c.scope Γ) (c.run fuel))

end

section
variable {env : Machine.Env} {fuel : Nat} {T : Scalar} {ctx : Context} {t u : State} {size : Nat}

theorem Fits.earlier (h : Fits env size u) (hlater : Later t u) : Fits env size t :=
  ⟨hlater.strings.trans h.strings, h.texts, Nat.le_trans hlater.slots h.slots, h.small⟩

theorem Fits.relaid {c : Array Instruction} {k : ReturnCache} (h : Fits env size { t with code := c, cache := k }) :
    Fits env size t := ⟨h.strings, h.texts, h.slots, h.small⟩

section
variable {base base' : Nat} {locals locals' : Locals} {kind : Option Scalar} {stack stack' : List Word} {ρ : Env}
  {slots slots₁ slots' : Array Word}

/-- What was kept before is kept after a term as well. -/
theorem Evaluated.after {r : Int × Env} (h : Evaluated base' locals kind stack slots₁ r stack' slots')
    (hkept : Kept base locals slots slots₁) (hle : base ≤ base') : Evaluated base locals kind stack slots r stack' slots' :=
  ⟨h.stack, h.value, h.bindings, hkept.trans h.kept hle⟩

section
variable (hp : TermCode env fuel base locals kind eval o t p)
include hp

theorem TermCode.widen {kind' : Option Scalar} (hkind : Widens kind kind') :
    TermCode env fuel base locals kind' eval (operandOf kind') t p := by
  refine ⟨rfl, hp.fills, fun ρ stack slots hfits hρ => (hp.does ρ stack slots hfits hρ).imp ?_⟩
  rintro r st sl ⟨hst, ⟨k, hk, hr⟩, hρ', hkept⟩
  obtain ⟨k', hk', hholds⟩ := hkind k hk
  exact ⟨hst, ⟨k', hk', hholds _ hr⟩, hρ', hkept⟩

/-- What goes on with the value of a term. -/
theorem TermCode.andThen (hfits : Fits env slots.size t) (hρ : Represents slots locals ρ)
    (hq : ∀ k n ρ' slots', kind = some k → k.Holds n → Represents slots' locals ρ' → Kept base locals slots slots' →
      Does (Machine.exec env fuel q) (word n :: stack) slots' (f (n, ρ')) post) :
    Does (Machine.exec env fuel (p.seq q)) stack slots (eval ρ >>= f) post := by
  refine (hp.does ρ stack slots hfits hρ).seq ?_
  rintro ⟨n, ρ'⟩ _ slots' ⟨rfl, ⟨k, hk, hn⟩, hρ', hkept⟩
  exact hq k n ρ' slots' hk hn hρ' hkept

/-- A loop that is tested by the value of a term. -/
theorem TermCode.test {β : Type} {f : Int × Env → Run (Bool × β)} {J : Bool → β → List Word → Array Word → Prop}
    (hfits : Fits env slots.size t) (hρ : Represents slots locals ρ)
    (hf : ∀ k n ρ' slots', kind = some k → k.Holds n → Represents slots' locals ρ' → Kept base locals slots slots' →
      ∃ b, f (n, ρ') = .done (n != 0, b) ∧ J (n != 0) b stack slots') :
    Does (Machine.exec env fuel p) stack slots (eval ρ >>= f) (Tested J) := by
  refine (hp.does ρ stack slots hfits hρ).map ?_
  rintro ⟨n, ρ'⟩ _ slots' ⟨rfl, ⟨k, hk, hn⟩, hρ', hkept⟩
  obtain ⟨b, hb, hJ⟩ := hf k n ρ' slots' hk hn hρ' hkept
  exact ⟨_, hb, word n, stack, rfl, (word_eq_zero hn).trans bne_eq_false_iff_eq.symm, hJ⟩

theorem TermCode.branch {q' : Piece} (hfits : Fits env slots.size t) (hρ : Represents slots locals ρ)
    (hyes : ∀ n ρ' slots', n ≠ 0 → Represents slots' locals ρ' → Kept base locals slots slots' →
      Does (Machine.exec env fuel q) stack slots' (f (n, ρ')) post)
    (hno : ∀ ρ' slots', Represents slots' locals ρ' → Kept base locals slots slots' →
      Does (Machine.exec env fuel q') stack slots' (f (0, ρ')) post) :
    Does (Machine.exec env fuel (p.seq (.branch q q'))) stack slots (eval ρ >>= f) post := by
  refine hp.andThen hfits hρ fun k n ρ' slots' _ hn hρ' hkept => .branch (fun hw => ?_) fun hw => ?_
  · exact hyes n ρ' slots' (mt (word_eq_zero hn).mpr hw) hρ' hkept
  · cases (word_eq_zero hn).mp hw
    exact hno ρ' slots' hρ' hkept

end

section
variable {Γ : Kinds} {run : Env → Run Env} {p q : Piece} (hp : StmtCode env fuel base locals Γ run locals' t p)
include hp

theorem StmtCode.andThen {f : Env → Run α}
    (hfits : Fits env slots.size t) (hρ : Represents slots locals ρ)
    (hq : ∀ ρ' slots', Represents slots' locals' ρ' → Kept base locals slots slots' →
      Does (Machine.exec env fuel q) stack slots' (f ρ') post) :
    Does (Machine.exec env fuel (p.seq q)) stack slots (run ρ >>= f) post := by
  refine (hp.does ρ stack slots hfits hρ).seq ?_
  rintro ρ' _ slots' ⟨rfl, hρ', hkept⟩
  exact hq ρ' slots' hρ' hkept

end
end

theorem InEntry.behind (h : InEntry T ctx) : InEntry T ctx.behind := ⟨h.inferrer, h.target⟩

theorem InEntry.inside (h : InEntry T ctx) (he : ctx.inside e = .ok ctx') : InEntry T ctx' := by
  obtain ⟨effects, -, hctx⟩ := Stateful.except_bind_eq_ok.mp he
  cases hctx
  exact ⟨h.inferrer, h.target⟩

structure Ready (env : Machine.Env) (fuel : Nat) (T : Scalar) (E : Emitter) (ctx : Context) (locals : Locals) (Γ : Kinds)
    (next : Nat) : Prop where
  emitter : Emitter.Sound env fuel T E
  entry : InEntry T ctx
  typed : Typed locals Γ
  apart : Apart next locals

section
variable {E : Emitter} {locals : Locals} {Γ : Kinds} {next next' : Nat}

theorem Ready.later (h : Ready env fuel T E ctx locals Γ next) (hle : next ≤ next') :
    Ready env fuel T E ctx locals Γ next' := ⟨h.emitter, h.entry, h.typed, h.apart.mono hle⟩

/-- What follows after statements, in the scope they lead to. -/
theorem Ready.inScope (h : Ready env fuel T E ctx locals Γ next) {locals' : Locals} {base next' : Nat}
    (hscope : Brings base locals Γ' next' locals') : Ready env fuel T E ctx locals' Γ' next' :=
  ⟨h.emitter, h.entry, hscope.typed, hscope.apart⟩

theorem Ready.inside (h : Ready env fuel T E ctx locals Γ next)
    (he : ctx.inside e = .ok ctx') : Ready env fuel T E ctx' locals Γ next :=
  ⟨h.emitter, h.entry.inside he, h.typed, h.apart⟩

theorem Ready.behind (h : Ready env fuel T E ctx locals Γ next) : Ready env fuel T E ctx.behind locals Γ next :=
  ⟨h.emitter, h.entry.behind, h.typed, h.apart⟩

end
end
end FlatCode.Source
