import FlatCode.Proofs.Building.Collection

/-! Lookups in maps. The code of a lookup goes through the entries of a map until it finds the key. Main result: a program that
    looks up a key in a map of literals is compiled, and its runs return the value of the first entry with the key, or report
    that there is none (`lookup_literals`). -/

namespace FlatCode

namespace Source

/-! ### Maps of literals -/

section
variable {K V : Scalar} {entries : List (Int × Int)} {i : Nat}

theorem Scalar.literals_pairs : K.literals V (entries.flatMap fun e => [e.1, e.2]) =
    entries.flatMap fun e => [K.literal e.1, V.literal e.2] := by
  induction entries with
  | nil => rfl
  | cons e entries ih =>
    rw [List.flatMap_cons, List.flatMap_cons, ← ih]
    rfl

theorem Scalar.holdsAll_pairs (h : ∀ e ∈ entries, K.Holds e.1 ∧ V.Holds e.2) :
    K.HoldsAll V (entries.flatMap fun e => [e.1, e.2]) := by
  induction entries with
  | nil => trivial
  | cons e entries ih =>
    obtain ⟨⟨hkey, hvalue⟩, hrest⟩ := List.forall_mem_cons.mp h
    exact ⟨hkey, hvalue, ih hrest⟩

theorem length_pairs : (entries.flatMap fun e => [e.1, e.2]).length = 2 * entries.length := by
  induction entries with
  | nil => rfl
  | cons e entries ih =>
    rw [List.flatMap_cons, List.length_append, ih]
    show 2 + 2 * entries.length = 2 * (entries.length + 1)
    omega

def pairWords (entries : List (Int × Int)) : List Word := word entries.length :: (entries.flatMap fun e => [e.1, e.2]).map word

theorem length_pairWords : (pairWords entries).length = 2 * entries.length + 1 := by
  rw [pairWords, List.length_cons, List.length_map, length_pairs]

theorem getElem?_pairs {e : Int × Int} (h : entries[i]? = some e) :
    (entries.flatMap fun e => [e.1, e.2])[i * 2]? = some e.1 ∧
      (entries.flatMap fun e => [e.1, e.2])[i * 2 + 1]? = some e.2 := by
  induction entries generalizing i with
  | nil => exact nomatch h
  | cons e' entries ih =>
    rw [List.flatMap_cons]
    cases i with
    | zero =>
      cases h
      exact ⟨rfl, rfl⟩
    | succ i =>
      rw [Nat.succ_mul]
      exact ih h

theorem getElem?_pairWords {e : Int × Int} (h : entries[i]? = some e) :
    (pairWords entries)[i * 2 + 1]? = some (word e.1) ∧ (pairWords entries)[i * 2 + 2]? = some (word e.2) := by
  obtain ⟨hkey, hvalue⟩ := getElem?_pairs h
  rw [pairWords, List.getElem?_cons_succ, List.getElem?_cons_succ, List.getElem?_map, List.getElem?_map, hkey, hvalue]
  exact ⟨rfl, rfl⟩

end

namespace Collection
variable {K V : Scalar} {entries : List (Int × Int)} {h : ∀ e ∈ entries, K.Holds e.1 ∧ V.Holds e.2}

def ofPairs (K V : Scalar) (entries : List (Int × Int)) (h : ∀ e ∈ entries, K.Holds e.1 ∧ V.Holds e.2) : Collection where
  form := .map
  key := K
  value := V
  numbers := entries.flatMap fun e => [e.1, e.2]
  alike h := absurd rfl h
  paired _ := by rw [length_pairs, Nat.mul_mod_right]
  range := Scalar.holdsAll_pairs h

theorem expr_ofPairs : (ofPairs K V entries h).expr = .templateCall "map" [K.kind.typeName, V.kind.typeName]
    (entries.flatMap fun e => [K.literal e.1, V.literal e.2]) := by
  have hargs : (ofPairs K V entries h).call.args = entries.flatMap fun e => [K.literal e.1, V.literal e.2] :=
    Scalar.literals_pairs
  rw [Expr.templateCall, ← hargs]
  rfl

theorem words_ofPairs : (ofPairs K V entries h).words = pairWords entries := by
  have hcount : (ofPairs K V entries h).count = entries.length := by
    show (entries.flatMap fun e => [e.1, e.2]).length / 2 = _
    rw [length_pairs, Nat.mul_div_cancel_left _ (by decide)]
  have hheader : (ofPairs K V entries h).header = [word (ofPairs K V entries h).count] := rfl
  rw [words, hheader, hcount]
  rfl

end Collection
end Source

namespace Lower
open Machine (Env Flow address Collected)
open Source (Scalar Collection word truth)

/-! ### The code of a search -/

namespace Behaviour

def testsLeft (count entry : Nat) : Behaviour := fun _ m f =>
  ∃ a b, m.slot entry = word a ∧ m.slot count = word b ∧ Scalar.i32.Holds a ∧ Scalar.i32.Holds b ∧
    f = .next { m with stack := word (truth (decide (a < b))) :: m.stack }

def testsKey (K : Scalar) (base key entry : Nat) : Behaviour := fun _ m f =>
  ∃ a b, m.At (m.slot base + (m.slot entry * UInt64.ofNat 2 + UInt64.ofNat 1) * 16) (word a) ∧ m.slot key = word b ∧
    K.Holds a ∧ K.Holds b ∧ f = .next { m with stack := word (truth (a == b)) :: m.stack }

def advances (entry : Nat) : Behaviour := fun _ m f =>
  ∃ a, m.slot entry = word a ∧ Scalar.i32.Holds a ∧ Scalar.i32.Holds (a + 1) ∧
    f = .next (m.stored entry (word (a + 1)) m.stack)

def misses (checked : Bool) : Behaviour := if checked then .fails "map key not found" else .skips

/-- The entries are gone through until one has the key. The slot `n` has the address of a map of `size` entries, and behind
    the map there are the key, the number of all entries and that of the current one. -/
def searches (K : Scalar) (n size : Nat) (checked : Bool) : Behaviour :=
  .Seeks (.testsLeft (n + 2 * size + 3) (n + 2 * size + 4)) (.testsKey K n (n + 2 * size + 2) (n + 2 * size + 4))
    (.advances (n + 2 * size + 4)) (.misses checked)

def prepares (k : Int) (n : Nat) (entries : List (Int × Int)) (R : Behaviour) : Behaviour :=
  .AndThen (.collects (n + 1) (Source.pairWords entries)) <| .AndThen (.stores n) <|
  .AndThen (.pushes fun _ => word k) <| .AndThen (.stores (n + 2 * entries.length + 2)) <|
  .AndThen (.pushes (·.slot n)) <| .AndThen .reads <| .AndThen (.stores (n + 2 * entries.length + 3)) <|
  .AndThen (.pushes fun _ => word 0) <| .AndThen (.stores (n + 2 * entries.length + 4)) R

def looksUp (K : Scalar) (k : Int) (n : Nat) (entries : List (Int × Int)) (checked : Bool) : Behaviour :=
  .prepares k n entries <| .AndThen (.searches K n entries.length checked) <|
  .AndThen (.pushes fun m => m.slot n + (m.slot (n + 2 * entries.length + 4) * UInt64.ofNat 2 + UInt64.ofNat 2) * 16) .reads

end Behaviour

variable {checked : Bool} {K : Scalar}

section
variable {n slots base key count entry : Nat}

theorem builds_entriesLeft : Builds n (emitEntriesLeft count entry) () n 0 3 (.testsLeft count entry) := by
  have hcompare : Builds n (compare .less Scalar.i32.width) () n 0 1 (.compares .less .i32) := builds_compare nofun
  refine Builds.mono (.bind builds_load (.bind builds_load hcompare)) rfl (by omega) (by omega) ?_
  rintro env m f ⟨a, b, hentry, hcount, ha, hb, rfl⟩
  have hstack : m.slot count :: m.slot entry :: m.stack = word b :: word a :: m.stack := by rw [hcount, hentry]
  exact .next rfl (.next rfl ⟨a, b, m.stack, hstack, ha, hb, rfl⟩)

theorem builds_keyTest : Builds n (emitKeyTest K.width base key entry) () n 0 12 (.testsKey K base key entry) := by
  have hcompare : Builds n (compare .equal K.width) () n 0 1 (.compares .equal K.number) := by
    rw [← K.width_number]
    exact builds_compare K.number_ne_bool
  refine Builds.mono (.bind builds_address (.bind builds_loadIndirect (.bind builds_load hcompare))) rfl (by omega)
    (by omega) ?_
  rintro env m f ⟨a, b, hread, hkey, ha, hb, rfl⟩
  have hstack : m.slot key :: word a :: m.stack = word b :: word a :: m.stack := by rw [hkey]
  exact .next rfl (.next ⟨_, _, _, rfl, hread, rfl⟩ (.next rfl ⟨a, b, m.stack, hstack, ha.number, hb.number, rfl⟩))

theorem builds_nextEntry (hentry : entry < n) : Builds n (nextEntry entry) () n 0 4 (.advances entry) := by
  have hpush : Builds n (emitWith .pushI32 1) () n 0 1 (.pushes fun _ => word 1) := builds_pushCount (by decide)
  have hadd : Builds n (arithmetic .plus Scalar.i32.width) () n 0 1 (.calculates .plus .i32) := builds_arithmetic nofun
  refine Builds.mono (.bind builds_load (.bind hpush (.bind hadd (builds_store hentry)))) rfl (by omega) (by omega) ?_
  rintro env m f ⟨a, hslot, ha, hnext, rfl⟩
  have hstack : word 1 :: m.slot entry :: m.stack = word 1 :: word a :: m.stack := by rw [hslot]
  have hresult : Source.result? .plus .i32 a 1 = some (a + 1) := congrArg some (Scalar.wrap_eq_self hnext)
  exact .next rfl (.next rfl (.next ⟨a, 1, _, m.stack, hstack, ha, Scalar.holds_one .i32, hresult, rfl⟩ ⟨_, _, rfl, rfl⟩))

theorem builds_search {size : Nat} (hn : n + 2 * size + 5 ≤ slots) :
    Builds slots (emitSearch K.width n (n + 2 * size + 2) (n + 2 * size + 3) (n + 2 * size + 4) checked) () slots 0 27
      (.searches K n size checked) := by
  have hmisses : Builds slots (if checked then fail "map key not found" else pure ()) () slots 0 4 (.misses checked) := by
    cases checked with
    | true => exact builds_fail
    | false => exact Builds.pure.mono rfl (Nat.le_refl _) (by omega) fun _ _ _ => id
  rw [emitSearch_eq]
  exact .loopUntil builds_entriesLeft builds_keyTest (builds_nextEntry (by omega)) hmisses

theorem builds_lookup {depth depth' : Nat} {scope : Scope} {ctx : Context} {locals : Locals} {V : Scalar} {k : Int}
    {entries : List (Int × Int)} {hentries : ∀ e ∈ entries, K.Holds e.1 ∧ V.Holds e.2} (hk : K.Holds k)
    (hrequire : ctx.effects.require "map" = .ok ()) (hsmall : 2 * entries.length < 2 ^ 31)
    (hinferrer : ctx.inferrer = .atDepth scope (depth' + 1)) :
    Builds n (emitLookup (.atDepth (depth + 1)) ctx locals (Collection.ofPairs K V entries hentries).type
      (Collection.ofPairs K V entries hentries).expr (K.literal k) checked) () (n + 2 * entries.length + 5)
      (n + 2 * entries.length + 5) (4 * entries.length + 48) (.looksUp K k n entries checked) := by
  have hwidth : lookupWidth ctx locals (Collection.ofPairs K V entries hentries).type (K.literal k) = pure K.width := by
    rw [lookupWidth, operand_literal _ _ hinferrer]
    cases K <;> rfl
  have hcollection : Builds (n + 1) (emitCollection (.atDepth (depth + 1)) ctx locals
      (Collection.ofPairs K V entries hentries).expr) (Collection.ofPairs K V entries hentries).type
      (n + 2 * entries.length + 2) 0 (4 * entries.length + 3) (.collects (n + 1) (Source.pairWords entries)) := by
    rw [← Collection.words_ofPairs (h := hentries)]
    have hlength : (Collection.ofPairs K V entries hentries).words.length = 2 * entries.length + 1 := by
      rw [Collection.words_ofPairs, Source.length_pairWords]
    exact Builds.mono (builds_collection _ hrequire (Source.length_pairs ▸ hsmall)) (by omega) (by omega) (by omega)
      fun _ _ _ => id
  rw [emitLookup, hwidth, pure_bind]
  have hzero : Builds (n + 2 * entries.length + 5) (emitWith .pushI32 0) () (n + 2 * entries.length + 5) 0 1
      (.pushes fun _ => word 0) := builds_pushCount (by decide)
  have hstored := (builds_store (Nat.lt_succ_self (n + 2 * entries.length + 4))).bind (f := fun _ => do
      emitSearch K.width n (n + 2 * entries.length + 2) (n + 2 * entries.length + 3) (n + 2 * entries.length + 4) checked
      emitAddress n (n + 2 * entries.length + 4) 2 2
      emit .loadIndirect) (.bind (builds_search (Nat.le_refl _)) (.bind builds_address builds_loadIndirect))
  exact .fresh (Builds.mono (.bind hcollection (.bind (builds_store (by omega)) (.fresh (.bind (builds_literalAt hk)
    (.bind (builds_store (by omega)) (.fresh (.bind builds_load (.bind builds_loadIndirect (.bind (builds_store (by omega))
      (.fresh (.bind hzero hstored))))))))))) rfl (by omega) (by omega) fun _ _ _ => id)

end

/-! ### What a search finds -/

/-- Within a search that is left with `m₀`: the first `j` entries have been passed. -/
structure Searching (n : Nat) (entries : List (Int × Int)) (k : Int) (m₀ : Machine.State) (j : Nat) (m : Machine.State) : Prop
    extends Collected m (n + 2 * entries.length + 5) n (n + 1) (Source.pairWords entries) where
  key : m.slot (n + 2 * entries.length + 2) = word k
  count : m.slot (n + 2 * entries.length + 3) = word entries.length
  entry : m.slot (n + 2 * entries.length + 4) = word j
  stack : m.stack = m₀.stack
  output : m.output = m₀.output

section
variable {n j : Nat} {K : Scalar} {entries : List (Int × Int)} {k : Int} {m₀ m : Machine.State} {e : Int × Int} (env : Env)

namespace Searching

section
variable (h : Searching n entries k m₀ j m)
include h

/-- The key and the value of the current entry are read through addresses. -/
theorem reads (he : entries[j]? = some e) :
    m.At (m.slot n + (m.slot (n + 2 * entries.length + 4) * UInt64.ofNat 2 + UInt64.ofNat 1) * 16) (word e.1) ∧
      m.At (m.slot n + (m.slot (n + 2 * entries.length + 4) * UInt64.ofNat 2 + UInt64.ofNat 2) * 16) (word e.2) := by
  obtain ⟨hkey, hvalue⟩ := Source.getElem?_pairWords he
  rw [h.address, h.entry, Source.word_natCast, Machine.address_add, Machine.address_add]
  exact ⟨h.read hkey, h.read hvalue⟩

theorem left (hsmall : entries.length < 2 ^ 31) (hj : j ≤ entries.length) :
    Behaviour.testsLeft (n + 2 * entries.length + 3) (n + 2 * entries.length + 4) env m
      (.next { m with stack := word (truth (decide (j < entries.length))) :: m.stack }) := by
  refine ⟨j, entries.length, h.entry, h.count, ⟨by omega, by omega⟩, ⟨by omega, by omega⟩, ?_⟩
  rw [decide_eq_decide.mpr Int.ofNat_lt]

theorem test (he : entries[j]? = some e) (hk : K.Holds k) (hkey : K.Holds e.1) :
    Behaviour.testsKey K n (n + 2 * entries.length + 2) (n + 2 * entries.length + 4) env m
      (.next { m with stack := word (truth (e.1 == k)) :: m.stack }) :=
  ⟨e.1, k, (h.reads he).1, h.key, hkey, hk, rfl⟩

theorem advance (hsmall : entries.length < 2 ^ 31) (hj : j < entries.length) :
    ∃ m', Behaviour.advances (n + 2 * entries.length + 4) env m (.next m') ∧ Searching n entries k m₀ (j + 1) m' := by
  have hlength : (Source.pairWords entries).length = 2 * entries.length + 1 := Source.length_pairWords
  refine ⟨_, ⟨j, h.entry, ⟨by omega, by omega⟩, ⟨by omega, by omega⟩, rfl⟩,
    { toCollected := h.toCollected.stored (by omega) (by omega), key := ?_, count := ?_, entry := ?_, stack := h.stack
      output := h.output }⟩
  · rw [h.slot_stored_ne (by omega) (by omega) (by omega), h.key]
  · rw [h.slot_stored_ne (by omega) (by omega) (by omega), h.count]
  · exact h.slot_stored (by omega)

end

/-- A search goes on to the first of the remaining entries that has the key, or passes them all. -/
theorem seek (checked : Bool) (h : Searching n entries k m₀ j m) (hsmall : entries.length < 2 ^ 31) (hk : K.Holds k)
    (hkeys : ∀ e ∈ entries, K.Holds e.1) (hj : j ≤ entries.length) {rest : List (Int × Int)} (hrest : entries.drop j = rest) :
    match rest.lookup k with
    | some v => ∃ m' j', Behaviour.searches K n entries.length checked env m (.next m') ∧ Searching n entries k m₀ j' m' ∧
        ∃ e, entries[j']? = some e ∧ e.2 = v
    | none => ∃ m', Searching n entries k m₀ entries.length m' ∧ ∀ f, Behaviour.misses checked env m' f →
        (∀ waiting t, f ≠ .exit waiting t) → Behaviour.searches K n entries.length checked env m f := by
  induction rest generalizing j m with
  | nil =>
    have hend : j = entries.length := Nat.le_antisymm hj (List.drop_eq_nil_iff.mp hrest)
    subst hend
    have hleft := h.left env hsmall hj
    rw [decide_eq_false (Nat.lt_irrefl _)] at hleft
    exact ⟨m, h, fun f hf hexit => .done hleft rfl hf hexit⟩
  | cons e rest ih =>
    have he : entries[j]? = some e := by rw [← List.head?_drop, hrest, List.head?_cons]
    have hlt : j < entries.length := (List.getElem?_eq_some_iff.mp he).1
    have hdrop : entries.drop (j + 1) = rest := by rw [← List.tail_drop, hrest, List.tail_cons]
    have hleft := h.left env hsmall hj
    rw [decide_eq_true hlt] at hleft
    have htest := h.test env he hk (hkeys e (List.mem_of_getElem? he))
    obtain ⟨a, v⟩ := e
    rw [List.lookup_cons]
    by_cases hkey : a = k
    · subst hkey
      rw [beq_self_eq_true] at htest ⊢
      exact ⟨_, j, .found hleft rfl (by decide) htest rfl (by decide), h, (a, v), he, rfl⟩
    · have hbeq : (a == k) = false := beq_eq_false_iff_ne.mpr hkey
      have hbeq' : (k == a) = false := beq_eq_false_iff_ne.mpr (Ne.symm hkey)
      rw [hbeq] at htest
      rw [hbeq']
      obtain ⟨m', hnext, h'⟩ := h.advance env hsmall hlt
      have hpass (f : Flow) (hf : Behaviour.searches K n entries.length checked env m' f) :
          Behaviour.searches K n entries.length checked env m f := .pass hleft rfl (by decide) htest rfl hnext hf
      have hseek := ih h' hlt hdrop
      cases hlookup : rest.lookup k with
      | some w =>
        rw [hlookup] at hseek
        obtain ⟨m'', j', hfound, hend, hentry⟩ := hseek
        exact ⟨m'', j', hpass _ hfound, hend, hentry⟩
      | none =>
        rw [hlookup] at hseek
        obtain ⟨m'', hend, hmiss⟩ := hseek
        exact ⟨m'', hend, fun f hf hexit => hpass f (hmiss f hf hexit)⟩

/-- The state in which a search starts. -/
theorem start (k : Int) (hm : m.Roomy (n + 2 * entries.length + 5)) :
    ∃ m', Searching n entries k m 0 m' ∧ ∀ (R : Behaviour) f, R env m' f → Behaviour.prepares k n entries R env m f := by
  have hlength : (Source.pairWords entries).length = 2 * entries.length + 1 := Source.length_pairWords
  obtain ⟨m₁, hm₁⟩ : ∃ m₁, m₁ = (m.filled (n + 1) (Source.pairWords entries)).stored n (address (n + 1)) m.stack := ⟨_, rfl⟩
  have hmap : Collected m₁ (n + 2 * entries.length + 5) n (n + 1) (Source.pairWords entries) :=
    hm₁ ▸ .of_filled hm (Nat.lt_succ_self n) (by omega)
  have hkeyed : Collected (m₁.stored (n + 2 * entries.length + 2) (word k) m.stack) (n + 2 * entries.length + 5) n (n + 1)
      (Source.pairWords entries) := hmap.stored (by omega) (by omega)
  have hcounted : Collected ((m₁.stored (n + 2 * entries.length + 2) (word k) m.stack).stored (n + 2 * entries.length + 3)
      (word entries.length) m.stack) (n + 2 * entries.length + 5) n (n + 1) (Source.pairWords entries) :=
    hkeyed.stored (by omega) (by omega)
  refine ⟨((m₁.stored (n + 2 * entries.length + 2) (word k) m.stack).stored (n + 2 * entries.length + 3)
      (word entries.length) m.stack).stored (n + 2 * entries.length + 4) (word 0) m.stack,
    { toCollected := hcounted.stored (by omega) (by omega), key := ?_, count := ?_, entry := ?_, stack := rfl, output := ?_ },
    ?_⟩
  · rw [hcounted.slot_stored_ne (by omega) (by omega) (by omega), hkeyed.slot_stored_ne (by omega) (by omega) (by omega),
      hmap.slot_stored (by omega)]
  · rw [hcounted.slot_stored_ne (by omega) (by omega) (by omega), hkeyed.slot_stored (by omega)]
  · exact hcounted.slot_stored (by omega)
  · rw [hm₁]
    exact Machine.State.output_filled
  · intro R f hf
    have hstack : m₁.stack = m.stack := by rw [hm₁, Machine.State.stored]
    have hread := hkeyed.read (i := 0) rfl
    rw [Nat.add_zero, ← hkeyed.address] at hread
    have hstored : Behaviour.stores n env
        { m.filled (n + 1) (Source.pairWords entries) with stack := address (n + 1) :: m.stack } (.next m₁) :=
      ⟨_, _, rfl, congrArg _ hm₁⟩
    exact .next rfl (.next hstored (.next rfl (.next ⟨_, _, congrArg _ hstack, rfl⟩ (.next rfl (.next ⟨_, _, _, rfl, hread, rfl⟩
      (.next ⟨_, _, rfl, rfl⟩ (.next rfl (.next ⟨_, _, rfl, rfl⟩ hf))))))))

end Searching

/-- A key of the map leaves the value of the first entry that has it; a checked lookup of another one ends the run. -/
theorem looksUp_entry (checked : Bool) (hm : m.Roomy (n + 2 * entries.length + 5)) (hsmall : entries.length < 2 ^ 31)
    (hk : K.Holds k) (hkeys : ∀ e ∈ entries, K.Holds e.1) :
    match entries.lookup k with
    | some v => ∃ m' : Machine.State, m'.output = m.output ∧
      Behaviour.looksUp K k n entries checked env m (.next { m' with stack := word v :: m.stack })
    | none => checked = true →
      Behaviour.looksUp K k n entries checked env m (.halt (.ok (m.output.failed "map key not found"))) := by
  obtain ⟨m₁, hstart, hfirst⟩ := Searching.start env k hm
  have hseek := hstart.seek env checked hsmall hk hkeys (Nat.zero_le _) List.drop_zero
  cases hlookup : entries.lookup k with
  | some v =>
    rw [hlookup] at hseek
    obtain ⟨m', j, hfound, hend, e, he, rfl⟩ := hseek
    have hload : Behaviour.reads env
        { m' with stack :=
            (m'.slot n + (m'.slot (n + 2 * entries.length + 4) * UInt64.ofNat 2 + UInt64.ofNat 2) * 16) :: m'.stack }
        (.next { m' with stack := word e.2 :: m.stack }) := ⟨_, _, _, rfl, (hend.reads he).2, by rw [hend.stack]⟩
    exact ⟨m', hend.output, hfirst _ _ (.next hfound (.next rfl hload))⟩
  | none =>
    rw [hlookup] at hseek
    obtain ⟨m', hend, hmiss⟩ := hseek
    rintro rfl
    have hfails : Behaviour.misses true env m' (.halt (.ok (m.output.failed "map key not found"))) := by
      rw [← hend.output]
      rfl
    exact hfirst _ _ (.stop (hmiss _ hfails nofun) trivial)

end
end Lower

/-! ### Programs -/

open Lower Machine
open Source (Scalar Collection word)

section
variable {K V : Scalar} {entries : List (Int × Int)} {k : Int}

/-- Programs that look up a key. -/
theorem runs_lookup (h : Heading) {builtin : String} (hbuiltin : builtin = "at" ∨ builtin = "at_unsafe") (hV : h.Returns V)
    (hheap : h.effects.contains .heapAlloc = true) (hentries : ∀ e ∈ entries, K.Holds e.1 ∧ V.Holds e.2) (hk : K.Holds k)
    (hslots : 2 * entries.length + 5 ≤ maxSlots) :
    ∃ m, (h.program [] [.ret (.plainCall builtin [.templateCall "map" [K.kind.typeName, V.kind.typeName]
        (entries.flatMap fun e => [K.literal e.1, V.literal e.2]), K.literal k])]).compile h.options = .ok m ∧
      ∀ args, match entries.lookup k with
        | some v => EndsWith m args (.returned (word v))
        | none => builtin = "at" → EndsWith m args (.reported "map key not found") := by
  have hmax : maxSlots = 2 ^ 20 := rfl
  have hcapacity : capacity = 2 ^ 59 := rfl
  have hrequire : h.effects.require "map" = .ok () := if_pos hheap
  have hevaluates : Evaluates h.effects (.plainCall builtin [(Collection.ofPairs K V entries hentries).expr, K.literal k]) V
      (0 + 2 * entries.length + 5) (0 + 2 * entries.length + 5) (4 * entries.length + 48)
      (.looksUp K k 0 entries (builtin == "at")) := by
    refine evaluates_index (c := .ofPairs K V entries hentries) hbuiltin hrequire rfl fun depth ctx hctx hinferrer => ?_
    obtain ⟨scope, depth', hinferrer⟩ := hinferrer
    exact builds_lookup hk (hctx ▸ hrequire) (by omega) hinferrer
  obtain ⟨m, hcompile, hruns⟩ := Heading.compile_return hevaluates hV (by omega) (Nat.le_refl _) (by omega)
  rw [Collection.expr_ofPairs] at hcompile
  refine ⟨m, hcompile, fun args => ?_⟩
  have hlookup {env : Env} {m : Machine.State} (hm : Starts (0 + 2 * entries.length + 5) args env m) :=
    looksUp_entry env (builtin == "at") hm.toRoomy (by omega) hk fun e he => (hentries e he).1
  cases hv : entries.lookup k with
  | some v =>
    refine hruns args _ fun env m hm => ?_
    have hfound := hlookup hm
    rw [hv] at hfound
    obtain ⟨m', houtput, hfound⟩ := hfound
    exact Heading.returned_of_next hfound rfl (houtput.trans hm.output)
  | none =>
    rintro rfl
    refine hruns args _ fun env m hm => ?_
    have hmissed := hlookup hm
    rw [hv] at hmissed
    exact Heading.reported_of_failed (hmissed rfl) hm.output

/-- A lookup is that of an association list: the first entry with the key counts. A map takes four slots besides the number of
    its entries, its keys and its values. -/
theorem lookup_literals (h : Heading) (hV : h.Returns V) (hheap : h.effects.contains .heapAlloc = true)
    (hentries : ∀ e ∈ entries, K.Holds e.1 ∧ V.Holds e.2) (hk : K.Holds k) (hslots : 2 * entries.length + 5 ≤ maxSlots) :
    (∃ m, (h.program [] [.ret (.plainCall "at" [.templateCall "map" [K.kind.typeName, V.kind.typeName]
        (entries.flatMap fun e => [K.literal e.1, V.literal e.2]), K.literal k])]).compile h.options = .ok m ∧
      ∀ args, EndsWith m args ((entries.lookup k).elim (.reported "map key not found") fun v => .returned (word v))) ∧
    ∃ m, (h.program [] [.ret (.plainCall "at_unsafe" [.templateCall "map" [K.kind.typeName, V.kind.typeName]
        (entries.flatMap fun e => [K.literal e.1, V.literal e.2]), K.literal k])]).compile h.options = .ok m ∧
      ∀ v, entries.lookup k = some v → ∀ args, EndsWith m args (.returned (word v)) := by
  constructor
  case left =>
    obtain ⟨m, hcompile, hruns⟩ := runs_lookup h (.inl rfl) hV hheap hentries hk hslots
    refine ⟨m, hcompile, fun args => ?_⟩
    have hends := hruns args
    cases hv : entries.lookup k with
    | some v =>
      rw [hv] at hends
      exact hends
    | none =>
      rw [hv] at hends
      exact hends rfl
  case right =>
    obtain ⟨m, hcompile, hruns⟩ := runs_lookup h (.inr rfl) hV hheap hentries hk hslots
    refine ⟨m, hcompile, fun v hv args => ?_⟩
    have hends := hruns args
    rw [hv] at hends
    exact hends

/-- The key 7 stands for the first of its values, and the key 8 for none. -/
theorem lookup_seven_twice : Scalar.i32.Holds 7 ∧ Scalar.i32.Holds 8 ∧
    (∃ m, (Heading.plain.program [] [.ret (.plainCall "at" [.templateCall "map" ["i32", "i64"]
        [Scalar.i32.literal 2, Scalar.i64.literal 5, Scalar.i32.literal 7, Scalar.i64.literal (-1), Scalar.i32.literal 7,
          Scalar.i64.literal 9], Scalar.i32.literal 7])]).compile Heading.plain.options = .ok m ∧
      ∀ args, EndsWith m args (.returned (word (-1)))) ∧
    ∃ m, (Heading.plain.program [] [.ret (.plainCall "at" [.templateCall "map" ["i32", "i64"]
        [Scalar.i32.literal 2, Scalar.i64.literal 5, Scalar.i32.literal 7, Scalar.i64.literal (-1), Scalar.i32.literal 7,
          Scalar.i64.literal 9], Scalar.i32.literal 8])]).compile Heading.plain.options = .ok m ∧
      ∀ args, EndsWith m args (.reported "map key not found") := by
  have hentries : ∀ e ∈ [((2 : Int), (5 : Int)), (7, -1), (7, 9)], Scalar.i32.Holds e.1 ∧ Scalar.i64.Holds e.2 := by
    simp [Scalar.Holds]
  have hfirst : Scalar.i32.Holds 7 := ⟨by decide, by decide⟩
  have hmissing : Scalar.i32.Holds 8 := ⟨by decide, by decide⟩
  exact ⟨hfirst, hmissing, (lookup_literals .plain (.inl rfl) rfl hentries hfirst (by decide)).1,
    (lookup_literals .plain (.inl rfl) rfl hentries hmissing (by decide)).1⟩

end
end FlatCode
