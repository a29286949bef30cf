import FlatCode.Check.Program
import FlatCode.Proofs.Safety

/-! What an expansion leaves on the stack. A run that comes to the end of an expansion has all the words of its start on
    the stack. Above them it has at least as many words as operands waited at the `return` by which it left the body, and
    no more if none waits at the other `return`s inside; so the stack is the same as at the start only if none waited. -/

namespace FlatCode.Machine
open Lower

/-! ### Runs through a region -/

variable {trace : List Nat} {k n : Nat} {p : Piece} {s t u : State}

section
variable {env : Env} {lo hi : Nat} {trace : List Nat} {s t : State}

theorem Steps.follow {i : Instruction} (hs : s.pc = k) (low : lo ≤ k) (high : k < hi) (code : env.code[k]? = some i)
    (step : step env i s = .continue t) (rest : Steps env lo hi trace t u) : Steps env lo hi (k :: trace) s u := by
  subst hs
  exact .cons low high code step rest

theorem Steps.stuck (h : Steps env lo hi trace s t) (hs : hi ≤ s.pc) : trace = [] ∧ t = s := by
  cases h with
  | refl => exact ⟨rfl, rfl⟩
  | cons _ high => exact absurd high (Nat.not_lt.mpr hs)

/-- A path that leaves the range goes on from every state that the machine comes to within it. -/
theorem Steps.through {lo' hi' : Nat} {trace' : List Nat} (h : Steps env lo hi trace s t) (ht : hi ≤ t.pc)
    (h' : Steps env lo' hi' trace' s u) (hlo : lo ≤ lo') (hhi : hi' ≤ hi) :
    ∃ more, trace = trace' ++ more ∧ Steps env lo hi more u t := by
  rcases h.deterministic (h'.widen hlo hhi) with ⟨more, rfl, hmore⟩ | hmore
  · obtain ⟨rfl, rfl⟩ := hmore.stuck ht
    exact ⟨[], by simp, .refl _⟩
  · exact hmore

/-- A path that leaves the range passes through the end of a flow in it, or one of its exits. -/
theorem Flow.Runs.passes {f : Flow} {r : Region} {stop : Nat} (h : f.Runs env r stop n s)
    (hsteps : Steps env lo hi trace s t) (ht : hi ≤ t.pc) (hlo : lo ≤ r.lo) (hhi : r.hi ≤ hi) (hn : trace.length < n) :
    (∃ u front more, f = .next u ∧ u.pc = stop ∧ trace = front ++ more ∧ Avoids r.exits front ∧
      (∀ q ∈ front, r.lo ≤ q ∧ q < r.hi) ∧ Steps env lo hi more u t) ∨
    ∃ u front more, ∃ x ∈ r.exits, f = .exit x.waiting u ∧ trace = front ++ x.position :: more ∧
      Steps env lo hi more { u with pc := r.target } t := by
  cases f with
  | next u =>
    obtain ⟨hpc, front, hfront, havoid⟩ := h
    obtain ⟨more, rfl, hmore⟩ := hsteps.through ht hfront hlo hhi
    exact .inl ⟨u, front, more, rfl, hpc, rfl, havoid, hfront.bounds, hmore⟩
  | exit waiting u =>
    obtain ⟨front, x, hx, rfl, hfront, -⟩ := h
    obtain ⟨more, rfl, hmore⟩ := hsteps.through ht hfront hlo hhi
    exact .inr ⟨u, front, more, x, hx, rfl, by simp, hmore⟩
  | halt result =>
    obtain ⟨front, u, i, hfront, hulo, huhi, hcode, hstep⟩ := h
    obtain ⟨more, rfl, hmore⟩ := hsteps.through ht hfront hlo hhi
    -- The state where the run ends has no next one.
    cases hmore with
    | refl => exact absurd huhi (Nat.not_lt.mpr (Nat.le_trans hhi ht))
    | cons _ _ hcode' hstep' =>
      cases hcode.symm.trans hcode'
      rw [hstep'] at hstep
      exact nomatch hstep
  | timeout =>
    obtain ⟨front, u, hfront, hle⟩ := h
    obtain ⟨more, rfl, -⟩ := hsteps.through ht hfront hlo hhi
    rw [List.length_append] at hn
    omega

end
/-! ### Where expansions stand -/

section
variable {a b : Piece} {x y r : Exit} {i j m : Nat}

theorem exits_inj_append (hij : i + a.size ≤ j) (ha : x ∈ a.exits i → y ∈ a.exits i → x = y)
    (hb : x ∈ b.exits j → y ∈ b.exits j → x = y) (hx : x ∈ b.exits j ++ a.exits i) (hy : y ∈ b.exits j ++ a.exits i)
    (h : x.position = y.position) : x = y := by
  rcases List.mem_append.mp hx with hx | hx <;> rcases List.mem_append.mp hy with hy | hy
  · exact hb hx hy
  · have := exits_bounds hx
    have := exits_bounds hy
    omega
  · have := exits_bounds hx
    have := exits_bounds hy
    omega
  · exact ha hx hy

/-- Two exits do not stand at one position. -/
theorem exits_inj (hx : x ∈ p.exits k) (hy : y ∈ p.exits k) (h : x.position = y.position) : x = y := by
  induction p generalizing k with
  | nop | op | scope => exact nomatch hx
  | seq a b iha ihb => exact exits_inj_append (Nat.le_refl _) iha ihb hx hy h
  | branch yes no ihy ihn => exact exits_inj_append (by omega) ihy ihn hx hy h
  | guard body ih => exact ih hx hy
  | loop cond body ihc ihb => exact exits_inj_append (Nat.le_succ _) ihc ihb hx hy h
  | exit waiting => rw [List.mem_singleton.mp hx, List.mem_singleton.mp hy]
  | expansion callee args body ih => exact ih hx hy

/-- An exit that stands inside a piece and is none of its open exits. -/
structure Inner (p : Piece) (k : Nat) (r : Exit) : Prop where
  low : k ≤ r.position
  high : r.position < k + p.size
  apart : ∀ x ∈ p.exits k, x.position ≠ r.position

theorem inner_append (h : Inner b j r ∨ Inner a i r) (hi : k ≤ i) (hij : i + a.size ≤ j) (hj : j + b.size ≤ m) :
    k ≤ r.position ∧ r.position < m ∧ ∀ x ∈ b.exits j ++ a.exits i, x.position ≠ r.position := by
  rcases h with ⟨hlo, hhi, hne⟩ | ⟨hlo, hhi, hne⟩
  · refine ⟨by omega, by omega, fun x hx => (List.mem_append.mp hx).elim (hne x) fun hx => ?_⟩
    have := exits_bounds hx
    omega
  · refine ⟨by omega, by omega, fun x hx => (List.mem_append.mp hx).elim (fun hx => ?_) (hne x)⟩
    have := exits_bounds hx
    omega

end

/-- The exits of an expansion stand inside the piece and are none of its open exits. -/
theorem inner_exits {y : Expansion} {r : Exit} (hy : y ∈ p.expansions k) (hr : r ∈ y.exits) : Inner p k r := by
  induction p generalizing k with
  | nop | op | exit => cases hy
  | seq a b iha ihb =>
    obtain ⟨hlo, hhi, hne⟩ := inner_append ((List.mem_append.mp hy).imp ihb iha) (Nat.le_refl k) (Nat.le_refl _)
      (Nat.le_of_eq (Nat.add_assoc ..))
    exact ⟨hlo, hhi, hne⟩
  | branch yes no ihy ihn =>
    obtain ⟨hlo, hhi, hne⟩ := inner_append (m := k + (yes.size + no.size + 2)) ((List.mem_append.mp hy).imp ihn ihy)
      (Nat.le_succ k) (by omega) (by omega)
    exact ⟨hlo, hhi, hne⟩
  | guard body ih =>
    obtain ⟨hlo, hhi, hne⟩ := ih hy
    exact ⟨by omega, by simp only [Piece.size]; omega, hne⟩
  | loop cond body ihc ihb =>
    obtain ⟨hlo, hhi, hne⟩ := inner_append (m := k + (cond.size + body.size + 2)) ((List.mem_append.mp hy).imp ihb ihc)
      (Nat.le_refl k) (Nat.le_succ _) (by omega)
    exact ⟨hlo, hhi, hne⟩
  | scope body ih => exact ⟨(ih hy).low, (ih hy).high, List.forall_mem_nil _⟩
  | expansion callee args body iha ihb =>
    have hsize : (Piece.expansion callee args body).size = args.size + body.size := rfl
    -- The exits that are open here are those of the arguments.
    have hbody (hlo : k + args.size ≤ r.position) : ∀ x ∈ args.exits k, x.position ≠ r.position := fun x hx => by
      have := exits_bounds hx
      omega
    rcases List.mem_cons.mp hy with rfl | hy
    · have := exits_bounds hr
      exact ⟨by omega, by omega, hbody this.1⟩
    · rcases List.mem_append.mp hy with hy | hy
      · obtain ⟨hlo, hhi, -⟩ := ihb hy
        exact ⟨by omega, by omega, hbody hlo⟩
      · obtain ⟨hlo, hhi, hne⟩ := iha hy
        exact ⟨by omega, by omega, hne⟩

theorem level_of_expansions (h : ∀ y ∈ p.expansions k, ∀ r ∈ y.exits, r.waiting = 0) : p.Level := by
  induction p generalizing k with
  | nop | op | exit => trivial
  | seq a b iha ihb =>
    exact ⟨iha fun y hy => h y (List.mem_append_right _ hy), ihb fun y hy => h y (List.mem_append_left _ hy)⟩
  | branch yes no ihy ihn =>
    exact ⟨ihy fun y hy => h y (List.mem_append_right _ hy), ihn fun y hy => h y (List.mem_append_left _ hy)⟩
  | guard body ih => exact ih h
  | loop cond body ihc ihb =>
    exact ⟨ihc fun y hy => h y (List.mem_append_right _ hy), ihb fun y hy => h y (List.mem_append_left _ hy)⟩
  | scope body ih => exact ih h
  | expansion callee args body iha ihb =>
    refine ⟨iha (k := k) fun y hy => ?_, ihb (k := k + args.size) fun y hy => ?_, fun w hw => ?_⟩
    · exact h y (List.mem_cons_of_mem _ (List.mem_append_right _ hy))
    · exact h y (List.mem_cons_of_mem _ (List.mem_append_left _ hy))
    · rw [← Piece.map_waiting_exits _ (k + args.size)] at hw
      obtain ⟨r, hr, rfl⟩ := List.mem_map.mp hw
      exact h _ (List.mem_cons_self ..) r hr

theorem expansions_of_plain {S : List String} {d d' : Nat} (h : p.Plain S d d') : p.expansions k = [] := by
  induction h generalizing k with
  | nop | op => rfl
  | seq _ _ iha ihb => simp [Piece.expansions, iha, ihb]
  | branch _ _ ihy ihn => simp [Piece.expansions, ihy, ihn]
  | guard _ ih => exact ih
  | loop _ _ ihc ihb => simp [Piece.expansions, ihc, ihb]
  | failure => rfl
  | loopUntil _ _ _ _ ihc iht ihn iha => simp [Piece.loopUntil, Piece.expansions, ihc, iht, ihn, iha]

/-- The code of `p` stands from `k` on, and its exits lead to `target`, at its end or beyond. -/
structure Stands (code : Array Instruction) (target k : Nat) (p : Piece) : Prop where
  holds : Holds code k (p.code target k)
  stop_le : k + p.size ≤ target
  target_le : target ≤ code.size

namespace Stands
variable {code : Array Instruction} {target k : Nat} {a b : Piece}

theorem seq (h : Stands code target k (a.seq b)) : Stands code target k a ∧ Stands code target (k + a.size) b := by
  obtain ⟨hcode, hstop, htarget⟩ := h
  simp only [Piece.size] at hstop
  exact ⟨⟨hcode.seq.1, by omega, htarget⟩, hcode.seq.2, by omega, htarget⟩

theorem branch (h : Stands code target k (.branch a b)) :
    Stands code target (k + 1) a ∧ Stands code target (k + a.size + 2) b := by
  obtain ⟨hcode, hstop, htarget⟩ := h
  simp only [Piece.size] at hstop
  exact ⟨⟨hcode.branch.1, by omega, htarget⟩, hcode.branch.2, by omega, htarget⟩

theorem loop (h : Stands code target k (.loop a b)) :
    Stands code target k a ∧ Stands code target (k + a.size + 1) b := by
  obtain ⟨hcode, hstop, htarget⟩ := h
  simp only [Piece.size] at hstop
  exact ⟨⟨hcode.loop.1, by omega, htarget⟩, hcode.loop.2, by omega, htarget⟩

theorem expansion {callee : String} (h : Stands code target k (.expansion callee a b)) :
    Stands code target k a ∧ Stands code (k + a.size + b.size) (k + a.size) b := by
  obtain ⟨hcode, hstop, htarget⟩ := h
  simp only [Piece.size] at hstop
  exact ⟨⟨hcode.expansion.1, by omega, htarget⟩, hcode.expansion.2, Nat.le_refl _, by omega⟩

end Stands

/-- The code of an expansion of the definition `d`, over `n` strings: its arguments, whose exits lead to `target`, and its
    body, which has no way to its end if the body of `d` is sure to leave. -/
structure Placed (code : Array Instruction) (n : Nat) (x : Expansion) (d : Definition) (args body : Piece) (target : Nat)
    (below : Option Nat) : Prop where
  stands : Stands code target x.start (.expansion x.callee args body)
  path : d.path = x.callee
  stop : x.stop = x.start + args.size + body.size
  exits : x.exits = body.exits (x.start + args.size)
  departs : Returns.listSurely d.body = true → body.Departs
  args : args.Balanced n below 0 0
  body : body.Balanced n (some 0) 0 0

/-- Among the expansions `l`, one ends at `target`, and the exit is one of its body. -/
def LeadsTo (l : List Expansion) (target : Nat) (r : Exit) : Prop := ∃ y ∈ l, y.stop = target ∧ r ∈ y.exits

theorem placed_of_laid {code : Array Instruction} {l : List Expansion} {u : Realm} {below : Option Nat}
    {d d' target : Nat} {x : Expansion} (h : p.Laid u below d d') (hp : Stands code target k p) (hall : p.expansions k ⊆ l)
    (hexits : ∀ r ∈ p.exits k, LeadsTo l target r) (hx : x ∈ p.expansions k) :
    ∃ d ∈ u.definitions, ∃ args body target' below', Placed code u.strings.length x d args body target' below' ∧
      args.expansions x.start ⊆ l ∧ body.expansions (x.start + args.size) ⊆ l ∧
      ∀ r ∈ args.exits x.start, LeadsTo l target' r := by
  induction h generalizing target k with
  | plain h => rw [expansions_of_plain h] at hx; exact nomatch hx
  | print | exit => exact nomatch hx
  | seq _ _ iha ihb =>
    obtain ⟨hb, ha⟩ := List.append_subset.mp hall
    obtain ⟨hrb, hra⟩ := List.forall_mem_append.mp hexits
    exact (List.mem_append.mp hx).elim (ihb hp.seq.2 hb hrb) (iha hp.seq.1 ha hra)
  | branch _ _ ihy ihn =>
    obtain ⟨hn, hy⟩ := List.append_subset.mp hall
    obtain ⟨hrn, hry⟩ := List.forall_mem_append.mp hexits
    exact (List.mem_append.mp hx).elim (ihn hp.branch.2 hn hrn) (ihy hp.branch.1 hy hry)
  | loop _ _ ihc ihb =>
    obtain ⟨hb, hc⟩ := List.append_subset.mp hall
    obtain ⟨hrb, hrc⟩ := List.forall_mem_append.mp hexits
    exact (List.mem_append.mp hx).elim (ihb hp.loop.2 hb hrb) (ihc hp.loop.1 hc hrc)
  | @expansion below callee args body hcallee ha hb leaves iha ihb =>
    obtain ⟨hself, hparts⟩ := List.cons_subset.mp hall
    obtain ⟨hbody, hargs⟩ := List.append_subset.mp hparts
    rcases List.mem_cons.mp hx with rfl | hx
    · exact ⟨callee, hcallee, args, body, target, below, ⟨hp, rfl, rfl, rfl, leaves, ha.balanced, hb.balanced⟩, hargs, hbody,
        hexits⟩
    · exact (List.mem_append.mp hx).elim (ihb hp.expansion.2 hbody fun r hr => ⟨_, hself, rfl, hr⟩)
        (iha hp.expansion.1 hargs hexits)
  | frame k _ ih => exact ih hp hall hexits hx

/-- Every expansion of a lowered entry is placed in its code. -/
theorem placed_of_lowered {p : Program} {depth : Nat} {entry : String} {defaults entryDefaults : List String} {l : Lowered}
    {x : Expansion} (h : p.loweredTo depth entry defaults entryDefaults = .ok l) (hx : x ∈ l.state.expansions) :
    ∃ d ∈ p.definitions, ∃ args body target below,
      Placed l.state.code l.state.strings.size x d args body target below ∧ args.expansions x.start ⊆ l.state.expansions ∧
      body.expansions (x.start + args.size) ⊆ l.state.expansions ∧
      ∀ r ∈ args.exits x.start, LeadsTo l.state.expansions target r := by
  obtain ⟨q, hq, hlaid, -⟩ := piece_of_lowered h
  obtain ⟨tail, hcode⟩ := hq.code_append
  rw [Piece.code_of_exits (hq.balanced.exits_eq_nil 0) 0 q.size] at hcode
  refine placed_of_laid hlaid ⟨.of_toList hcode, by omega, size_le_of_toList hcode⟩
    (hq.expansions ▸ List.Subset.refl _) ?_ (hq.expansions ▸ hx)
  rw [hq.balanced.exits_eq_nil]
  exact List.forall_mem_nil _

/-! ### The end of an expansion -/

section
variable {env : Env} {n : Nat} {x : Expansion} {d : Definition} {args body : Piece} {target : Nat} {below : Option Nat}

/-- A run of the body of an expansion that comes to its end. -/
theorem Placed.body_leftovers (h : Placed env.code n x d args body target below) (hsize : env.code.size < 2 ^ 64)
    (hn : n ≤ env.strings.size) (hs : s.pc = x.start + args.size) (ht : t.pc = x.stop)
    (hsteps : Steps env x.start x.stop trace s t) (exact : Prop) (hlevel : exact → body.Level) :
    ∃ leftovers, t.stack = leftovers ++ s.stack ∧
      ((Avoids x.exits trace ∧ (exact → leftovers = [])) ∨
        ∃ r ∈ x.exits, trace.getLast? = some r.position ∧ Deep exact r.waiting leftovers.length) := by
  have hstop := h.stop
  obtain ⟨hcode, -, hend⟩ := h.stands.expansion.2
  have hruns := exec_runs body (trace.length + 1) hsize hend hend hcode hs
  have hkeeps : (exec env (trace.length + 1) body s).Keeps exact (some 0) body.waits s.stack 0 :=
    exec_keeps h.body hn hlevel (List.nil_append _).symm ⟨Nat.le_refl 0, fun _ => rfl⟩
  rcases hruns.passes hsteps (Nat.le_of_eq ht.symm) (Nat.le_add_right ..) (Nat.le_of_eq hstop.symm)
    (Nat.lt_succ_self _) with
    ⟨u, front, more, hf, hpc, rfl, havoid, -, hmore⟩ | ⟨u, front, more, r, hr, hf, rfl, hmore⟩
  · rw [hf] at hkeeps
    obtain ⟨top, htop, hdeep⟩ := hkeeps
    obtain ⟨rfl, rfl⟩ := hmore.stuck (Nat.le_of_eq (hstop.trans hpc.symm))
    refine ⟨top, htop, .inl ⟨?_, fun he => List.length_eq_zero_iff.mp (hdeep.eq he)⟩⟩
    rw [List.append_nil, h.exits]
    exact havoid
  · rw [hf] at hkeeps
    obtain ⟨-, top, b, htop, hb, hwaiting⟩ := hkeeps
    cases hb
    obtain ⟨rfl, rfl⟩ := hmore.stuck (Nat.le_of_eq hstop)
    exact ⟨top, htop, .inr ⟨r, h.exits ▸ hr, by simp, Nat.zero_add top.length ▸ hwaiting⟩⟩

/-- What is on the stack at the end of an expansion. -/
theorem Placed.leftovers (h : Placed env.code n x d args body target below) (hsize : env.code.size < 2 ^ 64)
    (hn : n ≤ env.strings.size) (hs : s.pc = x.start) (ht : t.pc = x.stop)
    (hsteps : Steps env x.start x.stop trace s t) (exact : Prop) (hargs : exact → args.Level)
    (hbody : exact → body.Level) (hwaits : exact → ∀ w ∈ args.waits, w = 0) :
    ∃ leftovers, t.stack = leftovers ++ s.stack ∧
      (∀ r ∈ x.exits, trace.getLast? = some r.position → Deep exact r.waiting leftovers.length) ∧
      (exact → (∀ r ∈ x.exits, trace.getLast? ≠ some r.position) → leftovers = []) := by
  have hstop := h.stop
  have hstart : ∀ r ∈ x.exits, x.start + args.size ≤ r.position := fun r hr => (exits_bounds (h.exits ▸ hr)).1
  obtain ⟨hcode, hend, htarget⟩ := h.stands.expansion.1
  have hstop_le : x.start + (args.size + body.size) ≤ target := h.stands.stop_le
  have hruns := exec_runs args (trace.length + 1) hsize (Nat.le_trans hend htarget) htarget hcode hs
  have hkeeps : (exec env (trace.length + 1) args s).Keeps exact below args.waits s.stack 0 :=
    exec_keeps h.args hn hargs (List.nil_append _).symm ⟨Nat.le_refl 0, fun _ => rfl⟩
  rcases hruns.passes hsteps (Nat.le_of_eq ht.symm) (Nat.le_refl _) (by simp only [region]; omega)
    (Nat.lt_succ_self _) with
    ⟨u, front, more, hf, hpc, rfl, -, hbounds, hmore⟩ | ⟨u, front, more, r, hr, hf, rfl, hmore⟩
  · rw [hf] at hkeeps
    obtain ⟨top, hstack, hdeep⟩ := hkeeps
    obtain ⟨rest, hrest, hlast⟩ := h.body_leftovers hsize hn hpc ht hmore exact hbody
    have htop (he : exact) : rest ++ top = rest := by
      rw [List.length_eq_zero_iff.mp (hdeep.eq he), List.append_nil]
    refine ⟨rest ++ top, by rw [hrest, hstack, List.append_assoc], ?_⟩
    rcases hlast with ⟨havoid, hnil⟩ | ⟨r, hr, hlast, hlength⟩
    · -- No exit of the body is taken: they do not stand in the arguments either.
      have hnone : ∀ r ∈ x.exits, (front ++ more).getLast? ≠ some r.position := fun r hr hlast => by
        rcases List.mem_append.mp (List.mem_of_getLast? hlast) with hfront | hmore
        · have hlo := hstart r hr
          have hhi := (hbounds _ hfront).2
          simp only [region] at hhi
          omega
        · exact havoid r hr hmore
      exact ⟨fun r hr hlast => absurd hlast (hnone r hr), fun he _ => (htop he).trans (hnil he)⟩
    · have hlast : (front ++ more).getLast? = some r.position := by rw [List.getLast?_append, hlast]; rfl
      refine ⟨fun r' hr' hlast' => ?_, fun _ hnone => absurd hlast (hnone r hr)⟩
      have hpos := Option.some.inj (hlast'.symm.trans hlast)
      rw [h.exits] at hr hr'
      rw [exits_inj hr' hr hpos]
      refine ⟨?_, fun he => (congrArg List.length (htop he)).trans (hlength.eq he)⟩
      rw [List.length_append]
      exact Nat.le_add_right_of_le hlength.le
  · rw [hf] at hkeeps
    obtain ⟨hmem, top, b, htop, hb, hwaiting⟩ := hkeeps
    obtain ⟨rfl, rfl⟩ := hmore.stuck (by simp only [region]; omega)
    refine ⟨top, htop, fun r' hr' hlast => ?_, fun he _ => ?_⟩
    · -- The exit that is taken stands in the arguments.
      have hlo := hstart r' hr'
      have hhi := (exits_bounds (p := args) hr).2
      simp only [List.getLast?_append, List.getLast?_singleton, Option.some_or, Option.some.injEq] at hlast
      omega
    · have hzero := hwaiting.eq he
      rw [hwaits he _ hmem] at hzero
      exact List.length_eq_zero_iff.mp (Nat.eq_zero_of_add_eq_zero_left hzero)

end

/-- The stack at the end of an expansion. It holds the words of the start, and above them at least as many as operands
    waited at the `return` of the body that was taken. If no operand waits at the other `return`s inside, it holds
    exactly so many above them, and none if the end of the body was reached. -/
theorem stack_at_end_of_expansion {p : Program} {depth : Nat} {entry : String} {defaults entryDefaults : List String}
    {l : Lowered} {x : Expansion} {args : Array String} {trace : List Nat} {s t : State}
    (h : p.loweredTo depth entry defaults entryDefaults = .ok l) (hx : x ∈ l.state.expansions)
    (hsteps : Steps (loweredEnv l args) x.start x.stop trace s t) (hs : s.pc = x.start) (ht : t.pc = x.stop) :
    ∃ leftovers, t.stack = leftovers ++ s.stack ∧
      (∀ r ∈ x.exits, trace.getLast? = some r.position → r.waiting ≤ leftovers.length) ∧
      ((∀ y ∈ l.state.expansions, ∀ r ∈ y.exits, x.start ≤ r.position → r.position < x.stop → r ∉ x.exits →
          r.waiting = 0) →
        (∀ r ∈ x.exits, trace.getLast? = some r.position → leftovers.length = r.waiting) ∧
          ((∀ r ∈ x.exits, trace.getLast? ≠ some r.position) → leftovers = [])) := by
  obtain ⟨-, -, -, -, -, -, hsize, -⟩ := lowered_inv h
  obtain ⟨d, -, pa, pb, target, below, hplaced, hpa, hpb, hexits⟩ := placed_of_lowered h hx
  have hstop := hplaced.stop
  -- What stands in the arguments is no exit of the body.
  have hfront {r : Exit} (hr : r.position < x.start + pa.size) : r ∉ x.exits := fun hmem => by
    rw [hplaced.exits] at hmem
    have := (exits_bounds hmem).1
    omega
  let level : Prop := ∀ y ∈ l.state.expansions, ∀ r ∈ y.exits, x.start ≤ r.position → r.position < x.stop → r ∉ x.exits →
    r.waiting = 0
  have hargs (hzero : level) : pa.Level := level_of_expansions (k := x.start) fun y hy r hr => by
    obtain ⟨hlo, hhi, -⟩ := inner_exits hy hr
    exact hzero y (hpa hy) r hr hlo (by omega) (hfront hhi)
  have hbody (hzero : level) : pb.Level := level_of_expansions (k := x.start + pa.size) fun y hy r hr => by
    obtain ⟨hlo, hhi, hne⟩ := inner_exits hy hr
    refine hzero y (hpb hy) r hr (by omega) (by omega) fun hmem => ?_
    exact hne r (hplaced.exits ▸ hmem) rfl
  have hwaits (hzero : level) : ∀ w ∈ pa.waits, w = 0 := fun w hw => by
    rw [← Piece.map_waiting_exits _ x.start] at hw
    obtain ⟨r, hr, rfl⟩ := List.mem_map.mp hw
    obtain ⟨hlo, hhi⟩ := exits_bounds hr
    obtain ⟨y, hy, -, hry⟩ := hexits r hr
    exact hzero y hy r hry hlo (by omega) (hfront hhi)
  obtain ⟨leftovers, hstack, hlast, hend⟩ :=
    hplaced.leftovers (Nat.lt_trans hsize (by decide)) (Nat.le_refl _) hs ht hsteps level hargs hbody hwaits
  exact ⟨leftovers, hstack, fun r hr h => (hlast r hr h).le,
    fun hzero => ⟨fun r hr h => (hlast r hr h).eq hzero, hend hzero⟩⟩

/-! ### An expansion with a leftover -/

/-- A program that adds ten to the result of a definition. The definition returns two from within a sum, where the
    left operand waits. -/
def interrupted : Program := {
  definitions := [
    { path := "/f"
      transforms := [{ name := "return", templateArgs := ["i32"] }]
      result := some (.plainCall "plus" [.int32 1, .ifElse (.bool true) [.ret (.int32 2)] [.int32 3]]) },
    { path := "/main"
      transforms := [{ name := "return", templateArgs := ["i32"] }]
      result := some (.plainCall "plus" [.int32 10, .plainCall "f" []]) }] }

/-- The code of the program: the expansion stands between positions 1 and 15, and its first `return` at 8. -/
def interruptedCode : Array Instruction := #[
  { op := .pushI32, imm := 10 }, { op := .pushI32 }, { op := .storeLocal }, { op := .pushI32, imm := 1 },
  { op := .pushI32, imm := 1 }, { op := .jumpIfZero, imm := 11 }, { op := .pushI32, imm := 2 }, { op := .storeLocal },
  { op := .jump, imm := 15 }, { op := .pushI32 }, { op := .jump, imm := 12 }, { op := .pushI32, imm := 3 },
  { op := .addI32 }, { op := .storeLocal }, { op := .jump, imm := 15 }, { op := .loadLocal }, { op := .addI32 },
  { op := .returnI32 }]

def interruptedExpansion : Expansion :=
  { callee := "/f", start := 1, stop := 15, exits := [{ position := 14, waiting := 0 }, { position := 8, waiting := 1 }] }

theorem interrupted_lowers : (interrupted.lowered "/main" [] []).toOption.map (fun l => (l.state.code, l.state.expansions)) =
    some (interruptedCode, [interruptedExpansion]) := by
  decide +kernel

theorem interrupted_lowered : ∃ l, interrupted.lowered "/main" [] [] = .ok l ∧ l.state.code = interruptedCode ∧
    l.state.expansions = [interruptedExpansion] := by
  have hok := interrupted_lowers
  cases h : interrupted.lowered "/main" [] [] with
  | error e =>
    rw [h] at hok
    exact nomatch hok
  | ok l =>
    rw [h] at hok
    obtain ⟨hcode, hexpansions⟩ := Prod.mk.inj (Option.some.inj hok)
    exact ⟨l, rfl, hcode, hexpansions⟩

/-- The run through the expansion, entered with a ten on the stack. -/
theorem interrupted_steps (strings args : Array String) :
    Steps { code := interruptedCode, strings, args } 1 15 [1, 2, 3, 4, 5, 6, 7, 8]
      { pc := 1, stack := [10], slots := #[0] } { pc := 15, stack := [1, 10], slots := #[2] } := by
  iterate 8
    refine .follow rfl ?_ ?_ rfl rfl ?_
    · decide
    · decide
  exact .refl _

/-- The sum's left operand is left over, and the caller adds it in place of its ten. -/
theorem interrupted_leftover : ∃ (l : Lowered) (x : Expansion) (trace : List Nat) (s t : State),
    interrupted.lowered "/main" [] [] = .ok l ∧ x ∈ l.state.expansions ∧
      Steps (loweredEnv l #[]) x.start x.stop trace s t ∧ s.pc = x.start ∧ t.pc = x.stop ∧
      ∃ leftovers, t.stack = leftovers ++ s.stack ∧ leftovers.length = 1 := by
  obtain ⟨l, hl, hcode, hexpansions⟩ := interrupted_lowered
  have hx : interruptedExpansion ∈ l.state.expansions := hexpansions ▸ List.mem_singleton_self _
  have hsteps := interrupted_steps l.state.strings #[]
  rw [← hcode] at hsteps
  obtain ⟨leftovers, hstack, -, hexit⟩ := stack_at_end_of_expansion hl hx hsteps rfl rfl
  refine ⟨l, _, _, _, _, hl, hx, hsteps, rfl, rfl, leftovers, hstack, ?_⟩
  refine (hexit fun y hy r hr hlo hhi hne => ?_).1 { position := 8, waiting := 1 } (by decide) (by decide)
  rw [hexpansions] at hy
  cases List.mem_singleton.mp hy
  exact absurd hr hne

/-- So the stack at the end need not be the stack of the start, in a program that the checker accepts. -/
theorem stack_grows_through_expansion : (interrupted.check "/main" [] []).toBool = true ∧
    ¬∀ (l : Lowered) (x : Expansion) (trace : List Nat) (s t : State), interrupted.lowered "/main" [] [] = .ok l →
      x ∈ l.state.expansions → Steps (loweredEnv l #[]) x.start x.stop trace s t → s.pc = x.start → t.pc = x.stop →
        t.stack = s.stack := by
  refine ⟨by decide +kernel, fun hall => ?_⟩
  obtain ⟨l, hl, hcode, hexpansions⟩ := interrupted_lowered
  have hx : interruptedExpansion ∈ l.state.expansions := hexpansions ▸ List.mem_singleton_self _
  have hsteps := interrupted_steps l.state.strings #[]
  rw [← hcode] at hsteps
  exact absurd (hall l _ _ _ _ hl hx hsteps rfl rfl) (by decide)

end FlatCode.Machine
