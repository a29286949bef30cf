import FlatCode.Proofs.Order.Inference
import FlatCode.Proofs.Termination

/-! What definitions are found to return, if no result is inferred from itself. Then it does not matter which results are
    remembered or are being inferred: each definition is found to return the same. -/

namespace FlatCode

def Definition.isInferred (d : Definition) : Bool :=
  match ReturnInfo.declared? d with
  | .ok none => !d.isStruct && Returns.containsValue d.body
  | _ => false

namespace Scope
variable {scope : Scope} {d e : Definition} {l : List String}

/-- All that stands in the values from which the result of a definition is inferred. -/
def sources (scope : Scope) (d : Definition) : List Expr :=
  Expr.withinList ((Expr.withinList (d.parameters ++ d.body)).filterMap scope.source?)

/-- The result of `d` may be inferred from that of `e`, which is inferred itself. -/
structure InfersFrom (scope : Scope) (d e : Definition) : Prop where
  mem : d ∈ scope.definitions
  inferred : d.isInferred = true
  callee : e.isInferred = true
  call : ∃ ts c, .call ts c ∈ scope.sources d ∧ c.isBinding = false ∧ c.builtin? = none ∧ scope.MayMean d.path c e

/-- No result is inferred from itself, by way of others or directly (which alone would not depend on the order). -/
def Acyclic (scope : Scope) : Prop := ∀ d, ¬Relation.TransGen scope.InfersFrom d d

/-- Whether results are inferred from results of smaller rank only, and from no method. -/
def isRanked (scope : Scope) (rank : String → Nat) : Bool :=
  scope.definitions.all fun d => (scope.sources d).all fun s =>
    match s with
    | .call _ c => c.isBinding || c.builtin?.isSome ||
        !c.isMethod && (scope.resolve? c.name d.path).all fun e => decide (rank e.path < rank d.path)
    | _ => true

theorem acyclic_of_isRanked (rank : String → Nat) (h : scope.isRanked rank = true) : scope.Acyclic := by
  have hstep {d e : Definition} (hde : scope.InfersFrom d e) : rank e.path < rank d.path := by
    obtain ⟨ts, c, hc, hbinding, hb, hmeans⟩ := hde.call
    have hcall := List.all_eq_true.mp (List.all_eq_true.mp h d hde.mem) _ hc
    simp only [hbinding, hb, Option.isSome_none, Bool.false_or, Bool.and_eq_true, Bool.not_eq_true'] at hcall
    rw [MayMean, hcall.1, if_neg Bool.false_ne_true] at hmeans
    rw [hmeans] at hcall
    simpa using hcall.2
  have hpath {d e : Definition} (hde : Relation.TransGen scope.InfersFrom d e) : rank e.path < rank d.path := by
    induction hde with
    | single h => exact hstep h
    | tail _ h ih => exact Nat.lt_trans (hstep h) ih
  exact fun d hd => Nat.lt_irrefl _ (hpath hd)

/-- The results at the listed paths are inferred from that of `d`. -/
def Precede (scope : Scope) (l : List String) (d : Definition) : Prop :=
  ∀ path ∈ l, ∃ b, b.path = path ∧ Relation.TransGen scope.InfersFrom b d

theorem mem_of_transGen (h : Relation.TransGen scope.InfersFrom d e) : d ∈ scope.definitions := by
  induction h with
  | single h => exact h.mem
  | tail _ _ ih => exact ih

theorem Precede.nil : scope.Precede [] d := fun _ h => absurd h List.not_mem_nil

theorem Precede.cons (h : scope.Precede l d) (hde : scope.InfersFrom d e) : scope.Precede (d.path :: l) e := by
  intro path hpath
  rcases List.mem_cons.mp hpath with rfl | hpath
  · exact ⟨d, rfl, .single hde⟩
  · obtain ⟨b, hb, hbd⟩ := h path hpath
    exact ⟨b, hb, .tail hbd hde⟩

theorem Precede.fresh (h : scope.Precede l d) (hacyclic : scope.Acyclic) (hdistinct : Definition.Distinct scope.definitions)
    (hd : d ∈ scope.definitions) : d.path ∉ l := by
  intro hmem
  obtain ⟨b, hb, hbd⟩ := h d.path hmem
  obtain rfl := hdistinct b (mem_of_transGen hbd) d hd hb
  exact hacyclic b hbd

end Scope

namespace ReturnCache
variable {r : Definition → Except Error ReturnInfo} {definitions : List Definition} {cache : ReturnCache} {d : Definition}
  {info : ReturnInfo}

def Recalls (r : Definition → Except Error ReturnInfo) (definitions : List Definition) (cache : ReturnCache) : Prop :=
  ∀ d ∈ definitions, ∀ info, cache.lookup d.path = some info → r d = .ok info

theorem Recalls.nil : Recalls r definitions [] := fun _ _ _ h => nomatch h

theorem Recalls.cons (h : Recalls r definitions cache) (hdistinct : Definition.Distinct definitions)
    (hd : d ∈ definitions) (hinfo : r d = .ok info) : Recalls r definitions ((d.path, info) :: cache) := by
  intro e he info' hlookup
  by_cases hpath : e.path = d.path
  · obtain rfl := hdistinct e he d hd hpath
    rw [List.lookup_cons_self] at hlookup
    exact Option.some.inj hlookup ▸ hinfo
  · rw [List.lookup_cons, beq_false_of_ne hpath] at hlookup
    exact h e he info' hlookup

end ReturnCache

namespace Definition
variable {infer : List String → Definition → Recall Kind} {busy : List String} {d : Definition} {c : ReturnCache}

theorem run_get_bind {α : Type} {f : ReturnCache → Infer α} : (get >>= f).run c = (f c).run c := rfl

theorem run_returnInfo_of_lookup {info : ReturnInfo} (h : c.lookup d.path = some info) :
    (d.returnInfo infer busy).run c = some (.ok info, c) := by
  rw [returnInfo, run_get_bind, h]
  rfl

def stated (d : Definition) : Except Error ReturnInfo := (ReturnInfo.declared? d).map (·.getD .void)

theorem run_returnInfo_of_stated (h : c.lookup d.path = none) (hd : d.isInferred = false) :
    (d.returnInfo infer busy).run c =
      some (d.stated, match d.stated with | .ok info => (d.path, info) :: c | .error _ => c) := by
  rw [returnInfo, run_get_bind, h]
  unfold isInferred at hd
  unfold stated
  dsimp only
  cases hdeclared : ReturnInfo.declared? d with
  | error e => rfl
  | ok declared =>
    cases declared with
    | some info => rfl
    | none =>
      rw [hdeclared] at hd
      have hvoid : (d.isStruct || !Returns.containsValue d.body) = true := by cases hs : d.isStruct <;> simp_all
      show (if (d.isStruct || !Returns.containsValue d.body) = true then _ else _ : Infer ReturnInfo).run c = _
      rw [if_pos hvoid]
      rfl

theorem run_returnInfo_of_inferred (h : c.lookup d.path = none) (hd : d.isInferred = true) (hfree : d.path ∉ busy) :
    (d.returnInfo infer busy).run c =
      (infer (d.path :: busy) d c).bind fun r => some (.ok (.value r.1), (d.path, .value r.1) :: r.2) := by
  rw [returnInfo, run_get_bind, h]
  unfold isInferred at hd
  dsimp only
  cases hdeclared : ReturnInfo.declared? d with
  | error e => simp [hdeclared] at hd
  | ok declared =>
    cases declared with
    | some info => simp [hdeclared] at hd
    | none =>
      rw [hdeclared] at hd
      have hvalue : ¬(d.isStruct || !Returns.containsValue d.body) = true := by simpa using hd
      have hbusy : ¬busy.contains d.path = true := by simpa using hfree
      show (if (d.isStruct || !Returns.containsValue d.body) = true then _ else if busy.contains d.path = true then _
        else _ : Infer ReturnInfo).run c = _
      rw [if_neg hvalue, if_neg hbusy]
      show ((infer (d.path :: busy) d c).bind _).bind _ = _
      cases infer (d.path :: busy) d c <;> rfl

end Definition

namespace Check

def found (scope : Scope) (n : Nat) (d : Definition) : Except Error ReturnInfo :=
  match (returnInfo scope (.atDepth scope n) [] d).run [] with
  | some (r, _) => r
  | none => .ok .void

section
variable (p : Program) (scope : Scope)

abbrev Recalls : ReturnCache → Prop := ReturnCache.Recalls (found scope p.depth) scope.definitions

abbrev BothRecall (c c' : ReturnCache) : Prop := Recalls p scope c ∧ Recalls p scope c'

/-- While the results of `busy` are being inferred, `d` is found to return the same as without any memory. -/
def Settles (busy : List String) (d : Definition) : Prop :=
  ∀ n c, Lower.bodyCosts p scope busy < n → Recalls p scope c →
    ∃ c', (returnInfo scope (.atDepth scope n) busy d).run c = some (found scope p.depth d, c') ∧ Recalls p scope c'

end

section
variable {p : Program} {scope : Scope} {busy busy' : List String} {d : Definition}

theorem tracks_of_settles (h : Settles p scope busy d) (h' : Settles p scope busy' d) {n n' : Nat}
    (hn : Lower.bodyCosts p scope busy < n) (hn' : Lower.bodyCosts p scope busy' < n') :
    Recall.Tracks (BothRecall p scope) False (returnInfo scope (.atDepth scope n) busy d).run
      (returnInfo scope (.atDepth scope n') busy' d).run fun _ => True := by
  rintro c c' ⟨hc, hc'⟩
  obtain ⟨t, hrun, ht⟩ := h n c hn hc
  obtain ⟨t', hrun', ht'⟩ := h' n' c' hn' hc'
  exact .inr ⟨_, t, t', hrun, hrun', ⟨ht, ht'⟩, trivial⟩

section
variable (hdistinct : Definition.Distinct scope.definitions) (hd : d ∈ scope.definitions)
include hdistinct hd

theorem settles_of_stated (hstated : d.isInferred = false) : Settles p scope busy d := by
  intro n c _ hc
  have hfound : found scope p.depth d = d.stated := by
    unfold found returnInfo
    rw [Definition.run_returnInfo_of_stated rfl hstated]
  cases hlookup : c.lookup d.path with
  | some info =>
    rw [hc d hd info hlookup]
    exact ⟨c, Definition.run_returnInfo_of_lookup hlookup, hc⟩
  | none =>
    refine ⟨_, hfound ▸ Definition.run_returnInfo_of_stated hlookup hstated, ?_⟩
    split
    case h_1 info hinfo => exact hc.cons hdistinct hd hinfo
    case h_2 => exact hc

/-- A result is settled if it is inferred as it is without a memory. -/
theorem settles_of_inferred (hinferred : d.isInferred = true) (hfree : d.path ∉ busy)
    (h : ∀ n, Lower.bodyCosts p scope busy < n → Recall.Tracks (BothRecall p scope) False
      (inferResult scope (.atDepth scope n) (d.path :: busy) d) (inferResult scope (.atDepth scope p.depth) [d.path] d)
      fun _ => True) : Settles p scope busy d := by
  intro n c hn hc
  cases hlookup : c.lookup d.path with
  | some info =>
    rw [hc d hd info hlookup]
    exact ⟨c, Definition.run_returnInfo_of_lookup hlookup, hc⟩
  | none =>
    rcases h n hn c [] ⟨hc, .nil⟩ with ⟨hstop, -⟩ | ⟨k, t, t', hrun, hrun', ⟨ht, -⟩, -⟩
    · exact hstop.elim
    · have hfound : found scope p.depth d = .ok (.value k) := by
        unfold found returnInfo
        rw [Definition.run_returnInfo_of_inferred rfl hinferred List.not_mem_nil, hrun']
        rfl
      refine ⟨_, ?_, ht.cons hdistinct hd hfound⟩
      unfold returnInfo
      rw [Definition.run_returnInfo_of_inferred hlookup hinferred hfree, hrun, hfound]
      rfl

end

section
variable (p : Program) (scope : Scope) (home : String) (busy busy' : List String)

/-- What an expression may call is settled, whether the results of `busy` or those of `busy'` are being inferred. -/
def SettledCall (e : Expr) : Prop :=
  ∀ ts c, e = .call ts c → c.isBinding = false → c.builtin? = none → ∀ d, scope.MayMean home c d →
    Settles p scope busy d ∧ Settles p scope busy' d

/-- So is all that may be called where the value of a binding or a `return` is told. -/
def SettledSource (e : Expr) : Prop := ∀ i, scope.source? e = some i → i.All (SettledCall p scope home busy busy')

/-- Everything in an expression has the property `P`, and its operand is inferred in `n` steps while the results of `busy`
    are being inferred, and in `n'` steps while those of `busy'` are. -/
structure Fits (P : Expr → Prop) (n n' : Nat) (e : Expr) : Prop where
  all : e.All P
  first : Lower.InferredIn p scope n ⟨home, busy⟩ e
  second : Lower.InferredIn p scope n' ⟨home, busy'⟩ e

end

section
variable {home : String} {P : Expr → Prop} {n n' : Nat} {e : Expr} (hdefinitions : scope.definitions = p.definitions)
include hdefinitions

namespace Fits

theorem parts (h : Fits p scope home busy busy' P (n + 1) (n' + 1) e) :
    e.Parts (Fits p scope home busy busy' P n n') := by
  have hcoverage := Lower.coverage_inferredIn hdefinitions
  have hall := h.all.parts
  have hfirst := hcoverage.parts h.first
  have hsecond := hcoverage.parts h.second
  cases e with
  | literal | name => trivial
  | call ts c =>
    exact ⟨fun a ha => ⟨hall.1 a ha, hfirst.1 a ha, hsecond.1 a ha⟩,
      fun l hl s hs => ⟨hall.2 l hl s hs, hfirst.2 l hl s hs, hsecond.2 l hl s hs⟩⟩

theorem closed (h : Fits p scope home busy busy' P n n' e) : e.Parts (Fits p scope home busy busy' P n n') :=
  parts hdefinitions ⟨h.all, Nat.le_succ_of_le h.first, Nat.le_succ_of_le h.second⟩

theorem source (h : Fits p scope home busy busy' (SettledSource p scope home busy busy') (n + 1) (n' + 1) e) {i : Expr}
    (hi : scope.source? e = some i) : Fits p scope home busy busy' (SettledCall p scope home busy busy') n n' i := by
  have hpart := Scope.source?_mem (h.parts hdefinitions) hi
  exact ⟨h.all.self i hi, hpart.first, hpart.second⟩

end Fits

/-- From memories that hold nothing but what is found without them, inference to two depths gives the same. -/
theorem tracks_atDepth (n n' : Nat) :
    (∀ {env e}, Fits p scope home busy busy' (SettledCall p scope home busy busy') n n' e →
      Recall.Tracks (BothRecall p scope) False ((Inferrer.atDepth scope n).operand ⟨home, busy⟩ env e)
        ((Inferrer.atDepth scope n').operand ⟨home, busy'⟩ env e) fun _ => True) ∧
    ∀ {env l}, 0 < n ∧ 0 < n' ∧
      (∀ e ∈ l, Fits p scope home busy busy' (SettledSource p scope home busy busy') n n' e) →
      Recall.Tracks (BothRecall p scope) False ((Inferrer.atDepth scope n).firstReturn ⟨home, busy⟩ env l)
        ((Inferrer.atDepth scope n').firstReturn ⟨home, busy'⟩ env l) fun _ => True := by
  have hcoverage := Lower.coverage_inferredIn hdefinitions
  induction n generalizing n' with
  | zero => exact ⟨fun h => (hcoverage.zero h.first).elim, fun h => absurd h.1 (Nat.lt_irrefl 0)⟩
  | succ n ih =>
    cases n' with
    | zero => exact ⟨fun h => (hcoverage.zero h.second).elim, fun h => absurd h.2.1 (Nat.lt_irrefl 0)⟩
    | succ n' =>
      obtain ⟨hoperand, hfirst⟩ := ih n'
      refine ⟨fun {env e} h => ?_, fun {env l} h => ?_⟩
      · refine tracks_inferOperand hoperand (Fits.closed hdefinitions) (h.parts hdefinitions) ?_
        intro ts c hc hbinding hb d hd _
        obtain ⟨hsettles, hsettles'⟩ := h.all.self ts c hc hbinding hb d hd
        have hsize := e.size_pos
        have hroom : Lower.bodyCosts p scope busy + _ + 1 ≤ _ := h.first
        have hroom' : Lower.bodyCosts p scope busy' + _ + 1 ≤ _ := h.second
        exact tracks_of_settles hsettles hsettles' (by omega) (by omega)
      · obtain ⟨-, -, hl⟩ := h
        refine tracks_inferFirstReturn hoperand hfirst (fun e he i hi => (hl e he).source hdefinitions hi) ?_
        intro ts c hc body hbody
        have hcall := hl _ hc
        have hparts := hcall.parts hdefinitions
        refine ⟨hcoverage.block hcall.first, hcoverage.block hcall.second, ?_⟩
        exact CallOf.parts_blocks (fun a ha => (hparts.1 a ha).closed hdefinitions) hparts.2 body hbody

/-- Where all calls that matter are settled, the result of a definition is inferred alike. -/
theorem tracks_inferResult {d : Definition} (hd : d ∈ scope.definitions)
    (hfirst : Lower.bodyCosts p scope busy + Lower.bodyCost p ≤ n)
    (hsecond : Lower.bodyCosts p scope busy' + Lower.bodyCost p ≤ n')
    (hsources : ∀ e ∈ scope.sources d, SettledCall p scope d.path busy busy' e) :
    Recall.Tracks (BothRecall p scope) False (inferResult scope (.atDepth scope n) busy d)
      (inferResult scope (.atDepth scope n') busy' d) fun _ => True := by
  obtain ⟨hparameters, hbody⟩ := Lower.size_of_definition hdefinitions hd
  obtain ⟨hoperand, hfirstReturn⟩ := @tracks_atDepth p scope busy busy' d.path hdefinitions n n'
  have hall {e : Expr} (he : e ∈ d.parameters ++ d.body) : e.All (SettledSource p scope d.path busy busy') := by
    intro s hs i hi t ht
    have hs : s ∈ Expr.withinList (d.parameters ++ d.body) := Expr.mem_withinList.mpr ⟨e, he, hs⟩
    exact hsources t (Expr.mem_withinList.mpr ⟨i, List.mem_filterMap.mpr ⟨s, hs, hi⟩, ht⟩)
  have hfits {e : Expr} (he : e ∈ d.parameters ++ d.body) (hsize : e.size ≤ p.size) (k : Nat) (hk : k ≤ 1) :
      Fits p scope d.path busy busy' (SettledSource p scope d.path busy busy') (n + k) (n' + k) e := by
    unfold Lower.bodyCost at hfirst hsecond
    refine ⟨hall he, ?_, ?_⟩
    · show Lower.bodyCosts p scope busy + _ + 1 ≤ _
      omega
    · show Lower.bodyCosts p scope busy' + _ + 1 ≤ _
      omega
  have hpos : 0 < n ∧ 0 < n' := by
    unfold Lower.bodyCost at hfirst hsecond
    omega
  refine (tracks_inferParameters hoperand fun e he i hi => ?_).bind fun env _ => ?_
  · have he' := List.mem_append_left d.body he
    exact (hfits he' (Nat.le_of_lt (hparameters e he)) 1 (Nat.le_refl 1)).source hdefinitions hi
  · refine (hfirstReturn ⟨hpos.1, hpos.2, fun e he => ?_⟩).bind fun _ _ => .pure trivial
    exact hfits (List.mem_append_right _ he) (hbody e he) 0 (Nat.zero_le 1)

end

section
variable (hacyclic : scope.Acyclic) (hdistinct : Definition.Distinct scope.definitions)
  (hdefinitions : scope.definitions = p.definitions)
include hacyclic hdistinct hdefinitions

/-- A result is settled while results that are inferred from it are being inferred. The induction is on the definitions that
    are left when a chain of such results is taken away. -/
theorem settles_of_precede {l busy : List String} {d : Definition} (hd : d ∈ scope.definitions) (hl : scope.Precede l d)
    (hbusy : scope.Precede busy d) : Settles p scope busy d := by
  generalize hk : scope.unlisted l = k
  induction k using Nat.strongRecOn generalizing l busy d with
  | ind k ih =>
    cases hinferred : d.isInferred with
    | false => exact settles_of_stated hdistinct hd hinferred
    | true =>
      have hfree := hbusy.fresh hacyclic hdistinct hd
      refine settles_of_inferred hdistinct hd hinferred hfree fun n hn => ?_
      have hcosts := Lower.bodyCosts_cons (p := p) hd hfree
      refine tracks_inferResult hdefinitions hd (by omega) (Lower.bodyCosts_le hdefinitions) ?_
      intro s hs ts c hc hbinding hb e hmeans
      cases he : e.isInferred with
      | false => exact ⟨settles_of_stated hdistinct hmeans.mem he, settles_of_stated hdistinct hmeans.mem he⟩
      | true =>
        have hfrom : scope.InfersFrom d e := ⟨hd, hinferred, he, ts, c, hc ▸ hs, hbinding, hb, hmeans⟩
        have hless := Scope.unlisted_cons hd (hl.fresh hacyclic hdistinct hd)
        have hsettles {busy : List String} (h : scope.Precede busy e) : Settles p scope busy e :=
          ih _ (hk ▸ hless) hmeans.mem (hl.cons hfrom) h rfl
        exact ⟨hsettles (hbusy.cons hfrom), hsettles (Scope.Precede.nil.cons hfrom)⟩

theorem settles_of_mem {d : Definition} (hd : d ∈ scope.definitions) : Settles p scope [] d :=
  settles_of_precede hacyclic hdistinct hdefinitions hd Scope.Precede.nil Scope.Precede.nil

/-- What a definition returns is found alike, whatever is remembered. -/
theorem tracks_returnInfo {d : Definition} (hd : d ∈ scope.definitions) :
    Recall.Tracks (BothRecall p scope) False (returnInfo scope (.atDepth scope p.depth) [] d).run
      (returnInfo scope (.atDepth scope p.depth) [] d).run fun _ => True := by
  have hsettles := settles_of_mem hacyclic hdistinct hdefinitions hd
  have hdepth := Lower.bodyCosts_le hdefinitions (l := [])
  unfold Lower.bodyCost at hdepth
  exact tracks_of_settles hsettles hsettles (by omega) (by omega)

/-- So is the definition that a call means. -/
theorem tracks_meaning {home : String} {env : Env} {c : Call} (hargs : ∀ a ∈ c.args, a.size ≤ p.size) :
    Recall.Tracks (BothRecall p scope) False (callee? scope (.atDepth scope p.depth) ⟨home, []⟩ env c)
      (callee? scope (.atDepth scope p.depth) ⟨home, []⟩ env c) fun d? => ∀ d, d? = some d → d ∈ scope.definitions := by
  have hdepth := Lower.bodyCosts_le hdefinitions (l := [])
  unfold Lower.bodyCost at hdepth
  refine (tracks_callee? (Z := (·.size ≤ p.size)) (fun {env e} he => ?_) hargs).mono fun _ h d hd => (h d hd).mem
  refine (tracks_atDepth hdefinitions p.depth p.depth).1 ⟨fun s _ ts c _ _ _ d hd => ?_, ?_, ?_⟩
  · have hsettles := settles_of_mem hacyclic hdistinct hdefinitions hd.mem
    exact ⟨hsettles, hsettles⟩
  all_goals
    show Lower.bodyCosts p scope [] + _ + 1 ≤ _
    omega

end
end

end Check
end FlatCode
