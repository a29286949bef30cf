import FlatCode.Proofs.Building.Collection

/-! Checked indices. Main result: a program that reads an element of an array or a vector of literals, a byte of a text or an
    argument of the run at a literal index is compiled, and its runs give what stands there, or report that the index is out
    of bounds (`at_literals`). -/

namespace FlatCode

def elementAt? {α : Type} (l : List α) (i : Int) : Option α := if 0 ≤ i then l[i.toNat]? else none

variable {i : Int} {α : Type} {l : List α} {I : Scalar}

theorem elementAt?_eq_some {a : α} (h : elementAt? l i = some a) : ∃ j : Nat, i = j ∧ l[j]? = some a := by
  rw [elementAt?] at h
  split at h
  case isTrue hpos => exact ⟨i.toNat, (Int.toNat_of_nonneg hpos).symm, h⟩
  case isFalse => exact nomatch h

theorem elementAt?_eq_none (h : elementAt? l i = none) : ¬(0 ≤ i ∧ i < l.length) := by
  rintro ⟨hpos, hlt⟩
  rw [elementAt?, if_pos hpos, List.getElem?_eq_none_iff] at h
  omega

namespace Source

theorem Scalar.holds_natCast {I : Scalar} (hI : I ≠ .bool) {n : Nat} (hn : n < 2 ^ 31) : I.Holds n := by
  cases I with
  | i32 | i64 | u64 => exact ⟨by omega, by omega⟩
  | bool => exact absurd rfl hI

theorem Scalar.literals_self (T : Scalar) (l : List Int) : T.literals T l = l.map T.literal := by
  induction l with
  | nil => rfl
  | cons v l ih => rw [literals, ih, List.map_cons]

theorem Scalar.holdsAll_self {T : Scalar} {l : List Int} (h : ∀ v ∈ l, T.Holds v) : T.HoldsAll T l := by
  induction l with
  | nil => trivial
  | cons v l ih => exact ⟨h v List.mem_cons_self, ih fun v hv => h v (List.mem_cons_of_mem _ hv)⟩

namespace Collection

def ofList (form : CollectionForm) (hform : form ≠ .map) (T : Scalar) (l : List Int) (hl : ∀ v ∈ l, T.Holds v) :
    Collection where
  form := form
  key := T
  value := T
  numbers := l
  alike _ := rfl
  paired h := absurd h hform
  range := Scalar.holdsAll_self hl

theorem expr_ofList {form : CollectionForm} {hform : form ≠ .map} {T : Scalar} {l : List Int} {hl : ∀ v ∈ l, T.Holds v} :
    (ofList form hform T l hl).expr =
      .templateCall (ofList form hform T l hl).name [T.kind.typeName] (l.map T.literal) := by
  have htypes : (ofList form hform T l hl).call.templateArgs = [T.kind.typeName] := if_neg hform
  have hargs : (ofList form hform T l hl).call.args = l.map T.literal := T.literals_self l
  rw [Expr.templateCall, ← htypes, ← hargs]
  rfl

variable (c : Collection)

theorem count_words : c.words[0]? = some (word c.count) := by
  rw [words, header]
  split <;> rfl

theorem getElem?_words (i : Nat) : c.words[c.header.length + i]? = c.numbers[i]?.map word := by
  rw [words, List.getElem?_append_right (Nat.le_add_right ..), Nat.add_sub_cancel_left, List.getElem?_map]

end Collection
end Source

namespace Lower
open Machine (Env Flow address)
open Source (Scalar Collection word)

/-! ### Ranges -/

section
variable {α : Type} {I : Scalar} {i : Int} {index : Nat} {B : Behaviour} {env : Env} {m : Machine.State} {l : List α} {a : α}

theorem ranges_next (message : String) (ha : elementAt? l i = some a) (hslot : m.slot index = word i) (hi : I.Holds i)
    (hlength : I.Holds l.length) (hB : ∀ stack, B env { m with stack } (.next { m with stack := word l.length :: stack })) :
    Behaviour.ranges I index B message env m (.next m) := by
  refine ⟨i, l.length, hslot, hi, hlength, hB, ?_⟩
  obtain ⟨j, rfl, hj⟩ := elementAt?_eq_some ha
  have hlt := (List.getElem?_eq_some_iff.mp hj).1
  rw [if_pos ⟨by omega, by omega⟩]

theorem ranges_fails (message : String) (hnone : elementAt? l i = none) (hslot : m.slot index = word i) (hi : I.Holds i)
    (hlength : I.Holds l.length) (hB : ∀ stack, B env { m with stack } (.next { m with stack := word l.length :: stack })) :
    Behaviour.ranges I index B message env m (.halt (.ok (m.output.failed message))) := by
  refine ⟨i, l.length, hslot, hi, hlength, hB, ?_⟩
  rw [if_neg (elementAt?_eq_none hnone)]
  rfl

end

/-! ### Elements -/

def Behaviour.picks (I : Scalar) (i : Int) (base header : Nat) (ws : List Word) : Behaviour :=
  .AndThen (.collects (base + 1) ws) <| .AndThen (.stores base) <| .AndThen (.fills (base + 1 + ws.length) [word i]) <|
  .AndThen (.ranges I (base + 1 + ws.length) (.AndThen (.pushes (·.slot base)) .reads) "array index out of bounds") <|
  .AndThen (.pushes fun m => m.slot base + (m.slot (base + 1 + ws.length) * UInt64.ofNat 1 + UInt64.ofNat header) * 16) .reads

variable {ctx : Context} {env : Env} {locals : Locals} {m : Machine.State} {depth depth' : Nat} {scope : Scope}
  {builtin : String}

section
variable {I : Scalar} {i : Int} {n : Nat}

theorem builds_element
    (c : Collection) (hI : I ≠ .bool) (hi : I.Holds i) (hrequire : ctx.effects.require c.name = .ok ())
    (hsmall : c.numbers.length < 2 ^ 31) (hinferrer : ctx.inferrer = .atDepth scope (depth' + 1)) :
    Builds n (emitElement (.atDepth (depth + 1)) ctx locals builtin c.type c.expr (I.literal i) true) ()
      (n + 1 + c.words.length + 1) (n + 1 + c.words.length + 1) (2 * c.words.length + 31)
      (.picks I i n c.header.length c.words) := by
  have hcoerce : coerce .int32 I.width.kind = pure () := coerce_scalars .i32 I
  have hbound : Builds (n + 1 + c.words.length + 1) (do load n; emit .loadIndirect; coerce .int32 I.width.kind) ()
      (n + 1 + c.words.length + 1) 0 2 (.AndThen (.pushes (·.slot n)) .reads) := by
    rw [hcoerce]
    exact Builds.mono (.bind builds_load (.map (g := fun _ => ()) builds_loadIndirect)) rfl (by omega) (by omega)
      fun _ _ _ => id
  have haddress : Builds (n + 1 + c.words.length + 1)
      (emitAddress n (n + 1 + c.words.length) 1 (Int64.ofNat (headerSlots c.type))) () (n + 1 + c.words.length + 1) 0 9
      (.pushes fun m => m.slot n + (m.slot (n + 1 + c.words.length) * UInt64.ofNat 1 + UInt64.ofNat c.header.length) * 16) := by
    rw [c.headerSlots_eq]
    exact builds_address
  exact .fresh (Builds.mono (.bind (builds_collection c hrequire hsmall) (.bind (builds_store (by omega))
    (.bind (builds_spillIndex hI hi hinferrer) (.bind (builds_checkRange hI hbound) (.bind haddress builds_loadIndirect)))))
    rfl (by omega) (by omega) fun _ _ _ => id)

variable {m : Machine.State} {c : Collection}

/-- The state in which the range of the index is checked. -/
theorem collected_index (env : Env) (i : Int) (hm : m.Roomy (n + 1 + c.words.length + 1)) : ∃ m' : Machine.State,
    Machine.Collected m' (n + 1 + c.words.length + 1) n (n + 1) c.words ∧ m'.slot (n + 1 + c.words.length) = word i ∧
    m'.stack = m.stack ∧ m'.output = m.output ∧ ∀ (R : Behaviour) f, R env m' f →
      (Behaviour.AndThen (.collects (n + 1) c.words) <| .AndThen (.stores n) <|
        .AndThen (.fills (n + 1 + c.words.length) [word i]) R) env m f := by
  have hcollected : Machine.Collected ((m.filled (n + 1) c.words).stored n (address (n + 1)) m.stack)
      (n + 1 + c.words.length + 1) n (n + 1) c.words := .of_filled hm (Nat.lt_succ_self n) (Nat.le_succ _)
  refine ⟨((m.filled (n + 1) c.words).stored n (address (n + 1)) m.stack).stored (n + 1 + c.words.length) (word i) m.stack,
    hcollected.stored (Nat.le_refl _) (Nat.lt_succ_self _), hcollected.slot_stored (Nat.lt_succ_self _), rfl, ?_, ?_⟩
  · exact Machine.State.output_filled
  · intro R f hf
    exact .next rfl (.next ⟨_, _, rfl, rfl⟩ (.next rfl hf))

/-- An index in range leaves the element; another one ends the run. -/
theorem picks_element (env : Env) (hm : m.Roomy (n + 1 + c.words.length + 1)) (hI : I ≠ .bool) (hi : I.Holds i)
    (hform : c.form ≠ .map) (hsmall : c.numbers.length < 2 ^ 31) :
    match elementAt? c.numbers i with
    | some v => ∃ m' : Machine.State, m'.output = m.output ∧
      Behaviour.picks I i n c.header.length c.words env m (.next { m' with stack := word v :: m.stack })
    | none => Behaviour.picks I i n c.header.length c.words env m
      (.halt (.ok (m.output.failed "array index out of bounds"))) := by
  obtain ⟨m', hcollected, hindex, hstack, houtput, hfirst⟩ := collected_index env i hm
  have hcount : c.count = c.numbers.length := if_neg hform
  have hread : m'.At (m'.slot n) (word c.numbers.length) := by
    have hread := hcollected.read c.count_words
    rwa [Nat.add_zero, ← hcollected.address, hcount] at hread
  have hbound (stack : List Word) : (Behaviour.AndThen (.pushes (·.slot n)) .reads) env { m' with stack }
      (.next { m' with stack := word c.numbers.length :: stack }) := .next rfl ⟨_, _, _, rfl, hread, rfl⟩
  have hlength := Scalar.holds_natCast hI hsmall
  split
  case h_1 v hv =>
    have hrange := ranges_next "array index out of bounds" hv hindex hi hlength hbound
    obtain ⟨j, rfl, hj⟩ := elementAt?_eq_some hv
    have hword : c.words[c.header.length + j]? = some (word v) := by rw [c.getElem?_words, hj, Option.map_some]
    have haddress : m'.slot n + (m'.slot (n + 1 + c.words.length) * UInt64.ofNat 1 + UInt64.ofNat c.header.length) * 16 =
        address (n + 1 + (c.header.length + j)) := by
      rw [hcollected.address, hindex, Source.word_natCast, Machine.address_add, Nat.mul_one, Nat.add_comm j]
    have hload : Behaviour.reads env { m' with stack := address (n + 1 + (c.header.length + j)) :: m'.stack }
        (.next { m' with stack := word v :: m.stack }) := ⟨_, _, _, rfl, hcollected.read hword, by rw [hstack]⟩
    refine ⟨m', houtput, hfirst _ _ (.next hrange (.next ?_ hload))⟩
    rw [Behaviour.pushes, haddress]
  case h_2 hnone =>
    have hrange := ranges_fails "array index out of bounds" hnone hindex hi hlength hbound
    rw [← houtput]
    exact hfirst _ _ (.stop hrange trivial)

end

/-! ### Bytes -/

def Behaviour.loadsByte (index : Nat) : Behaviour := fun env m f =>
  ∃ text a rest b, index < capacity ∧ env.strings[index]? = some text ∧ m.stack = a :: rest ∧
    text.toUTF8.data[a.toNat]? = some b ∧ f = .next { m with stack := b.toUInt64 :: rest }

def Behaviour.picksByte (I : Scalar) (i : Int) (slot length index : Nat) : Behaviour :=
  .AndThen (.fills slot [word i]) <|
  .AndThen (.ranges I slot (.pushes fun _ => word length) "string index out of bounds") <|
  .AndThen (.pushes (·.slot slot)) (.loadsByte index)

section
variable {I : Scalar} {i : Int} {n index : Nat}

theorem builds_loadStringByte : Builds n (emitWith .loadStringByte (UInt64.ofNat index)) () n 0 1 (.loadsByte index) := by
  refine builds_op rfl ?_
  rintro env m f ⟨text, a, rest, b, hindex, htext, hm, hb, rfl⟩
  refine .op fun pc => ?_
  have hstring : env.strings[(UInt64.ofNat index).toNat]? = some text := by
    rw [UInt64.toNat_ofNat_of_lt' (Nat.lt_trans hindex (by decide)), htext]
  simp only [Opcode.operation, Machine.perform, Machine.State.pop, hm, hstring, Option.bind_some, hb, Machine.State.push]

theorem builds_byte {length : Nat}
    (hI : I ≠ .bool) (hi : I.Holds i) (hlength : length < 2 ^ 31) (hinferrer : ctx.inferrer = .atDepth scope (depth' + 1)) :
    Builds n (emitByte (.atDepth (depth + 1)) ctx locals builtin index length (I.literal i) true) () (n + 1) (n + 1) 20
      (.picksByte I i n length index) := by
  have hvalue : (Int64.ofNat length).toInt = length := by
    rw [← Int64.ofInt_eq_ofNat]
    exact Source.toInt_ofInt64 ⟨by omega, by omega⟩
  have hbound : Builds (n + 1) (pushInt I.width (Int64.ofNat length)) () (n + 1) 0 1 (.pushes fun _ => word length) := by
    rw [← hvalue]
    exact builds_pushInt hI (hvalue ▸ Scalar.holds_natCast hI hlength)
  exact Builds.mono (.bind (builds_spillIndex hI hi hinferrer) (.bind (builds_checkRange hI hbound)
    (.bind builds_load builds_loadStringByte))) rfl (by omega) (by omega) fun _ _ _ => id

/-- An index in range leaves the byte; another one ends the run. -/
theorem picksByte_text {text : String} (hm : m.Roomy (n + 1)) (hI : I ≠ .bool) (hi : I.Holds i)
    (hlength : text.utf8ByteSize < 2 ^ 31) (hindex : index < capacity) (htext : env.strings[index]? = some text) :
    match elementAt? text.toUTF8.data.toList i with
    | some b => Behaviour.picksByte I i n text.utf8ByteSize index env m
      (.next { m.filled n [word i] with stack := b.toUInt64 :: m.stack })
    | none => Behaviour.picksByte I i n text.utf8ByteSize index env m
      (.halt (.ok (m.output.failed "string index out of bounds"))) := by
  have hslot : (m.filled n [word i]).slot n = word i := hm.slot_stored (Nat.lt_succ_self n)
  have hsize : text.toUTF8.data.toList.length = text.utf8ByteSize := Array.length_toList
  have hholds : I.Holds text.toUTF8.data.toList.length := hsize ▸ Scalar.holds_natCast hI hlength
  split
  case h_1 b hb =>
    have hrange : Behaviour.ranges I n (.pushes fun _ => word text.utf8ByteSize) "string index out of bounds" env
        (m.filled n [word i]) (.next (m.filled n [word i])) := ranges_next _ hb hslot hi hholds fun _ => rfl
    obtain ⟨j, rfl, hj⟩ := elementAt?_eq_some hb
    have hlt : j < text.utf8ByteSize := hsize ▸ (List.getElem?_eq_some_iff.mp hj).1
    have hbyte : text.toUTF8.data[((m.filled n [word j]).slot n).toNat]? = some b := by
      rw [hslot, Source.toNat_word_natCast (Nat.lt_trans hlt hlength), ← Array.getElem?_toList, hj]
    exact .next rfl (.next hrange (.next rfl ⟨text, _, _, b, hindex, htext, rfl, hbyte, rfl⟩))
  case h_2 hnone =>
    exact .next rfl (.stop (ranges_fails "string index out of bounds" hnone hslot hi hholds fun _ => rfl) trivial)

end

/-! ### Arguments -/

def Behaviour.countsArguments : Behaviour := fun env m f => f = .next { m with stack := word env.args.size :: m.stack }

def Behaviour.printsArgument (mode : PrintMode) : Behaviour := fun env m f =>
  ∃ a rest text, m.stack = a :: rest ∧ env.args[a.toNat]? = some text ∧
    f = .next { m with stack := rest, output := m.output.write mode text }

def Behaviour.picksArgument (I : Scalar) (i : Int) (slot : Nat) : Behaviour :=
  .AndThen (.AndThen (.fills slot [word i]) <|
    .AndThen (.ranges I slot .countsArguments "array index out of bounds") (.pushes (·.slot slot)))
  (.printsArgument { newline := true, stderr := false })

section
variable {I : Scalar} {i : Int} {n : Nat}

theorem builds_pushArgc : Builds n (emit .pushArgc) () n 0 1 .countsArguments := by
  refine builds_op rfl ?_
  rintro env m f rfl
  exact .op fun pc => by rw [Source.word_natCast]; rfl

theorem builds_printArgv {mode : PrintMode} (hmode : PrintMode.ofImm mode.flags = mode) :
    Builds n (emitWith .printArgv mode.flags) () n 0 1 (.printsArgument mode) := by
  refine builds_op rfl ?_
  rintro env m f ⟨a, rest, text, hm, htext, rfl⟩
  refine .op fun pc => ?_
  simp only [Opcode.operation, Machine.perform, Machine.State.pop, hm, htext, Machine.State.write, hmode]

theorem picksArgument_text (hm : m.Roomy (n + 1)) (hI : I ≠ .bool) (hi : I.Holds i) (hsize : env.args.size < 2 ^ 31) :
    match elementAt? env.args.toList i with
    | some text => Behaviour.picksArgument I i n env m
      (.next { m.filled n [word i] with output := m.output.write { newline := true, stderr := false } text })
    | none => Behaviour.picksArgument I i n env m (.halt (.ok (m.output.failed "array index out of bounds"))) := by
  have hslot : (m.filled n [word i]).slot n = word i := hm.slot_stored (Nat.lt_succ_self n)
  have hholds : I.Holds env.args.toList.length := Array.length_toList ▸ Scalar.holds_natCast hI hsize
  split
  case h_1 text htext =>
    have hrange : Behaviour.ranges I n .countsArguments "array index out of bounds" env (m.filled n [word i])
        (.next (m.filled n [word i])) := ranges_next _ htext hslot hi hholds fun _ => rfl
    obtain ⟨j, rfl, hj⟩ := elementAt?_eq_some htext
    have hlt : j < env.args.size := Array.length_toList ▸ (List.getElem?_eq_some_iff.mp hj).1
    have hargument : env.args[((m.filled n [word j]).slot n).toNat]? = some text := by
      rw [hslot, Source.toNat_word_natCast (Nat.lt_trans hlt hsize), ← Array.getElem?_toList, hj]
    exact .next (.next rfl (.next hrange rfl)) ⟨_, _, text, rfl, hargument, rfl⟩
  case h_2 hnone =>
    have hrange : Behaviour.ranges I n .countsArguments "array index out of bounds" env (m.filled n [word i])
        (.halt (.ok (m.output.failed "array index out of bounds"))) := ranges_fails _ hnone hslot hi hholds fun _ => rfl
    exact .stop (.next rfl (.stop hrange trivial)) trivial

end
end Lower

open Lower Machine Stateful
open Source (Scalar Collection word)

/-- Programs that read a byte of a text. -/
theorem runs_byte (h : Heading) (text : String) (hI : I ≠ .bool) (hi : I.Holds i)
    (hT : h.Returns .i32) (hlength : text.utf8ByteSize < 2 ^ 31) :
    ∃ m, (h.program [] [.ret (.plainCall "at" [.string text, I.literal i])]).compile h.options = .ok m ∧ ∀ args,
      EndsWith m args ((elementAt? text.toUTF8.data.toList i).elim (.reported "string index out of bounds") fun b =>
        .returned b.toUInt64) := by
  -- The index of the text in the table is known to what follows.
  have hevaluates : Evaluates h.effects (.plainCall "at" [.string text, I.literal i]) .i32 1 1 21 fun env m f =>
      ∀ index, index < capacity → env.strings[index]? = some text →
        Behaviour.picksByte I i 0 text.utf8ByteSize index env m f := by
    constructor
    case checked =>
      intro depth ctx cache _ _
      cases I with
      | i32 | i64 | u64 => rfl
      | bool => exact absurd rfl hI
    case inferred => exact fun _ _ _ _ => rfl
    case told => exact fun _ _ _ _ => rfl
    case built =>
      intro depth ctx _ ⟨scope, depth', hinferrer⟩
      show Builds 0 (do
        let index ← internText text
        emitByte (.atDepth (depth + 2)) ctx [] "at" index text.utf8ByteSize (I.literal i) true
        return Operand.value .int32) _ _ _ _ _
      exact .intern (fun index => .map (builds_byte hI hi hlength hinferrer)) fun index _ _ _ hindex htext hf =>
        hf index hindex htext
  obtain ⟨m, hcompile, hruns⟩ := Heading.compile_return hevaluates hT (by decide) (Nat.le_refl _) (by decide)
  refine ⟨m, hcompile, fun args => hruns args _ fun env m hm => ?_⟩
  cases hb : elementAt? text.toUTF8.data.toList i with
  | some b =>
    have hnext (index : Nat) (hindex : index < capacity) (htext : env.strings[index]? = some text) :
        Behaviour.picksByte I i 0 text.utf8ByteSize index env m
          (.next { m.filled 0 [word i] with stack := b.toUInt64 :: m.stack }) := by
      have hbyte := picksByte_text hm.toRoomy hI hi hlength hindex htext
      rw [hb] at hbyte
      exact hbyte
    exact Heading.returned_of_next hnext rfl hm.output
  | none =>
    refine Heading.reported_of_failed (fun index hindex htext => ?_) hm.output
    have hbyte := picksByte_text hm.toRoomy hI hi hlength hindex htext
    rw [hb] at hbyte
    exact hbyte

/-- Programs that read an element of an array or a vector. -/
theorem runs_element (h : Heading) (c : Collection) (hI : I ≠ .bool) (hi : I.Holds i) (hform : c.form ≠ .map)
    (hT : h.Returns c.value) (hrequire : h.effects.require c.name = .ok ()) (hslots : c.words.length + 2 ≤ maxSlots) :
    ∃ m, (h.program [] [.ret (.plainCall "at" [c.expr, I.literal i])]).compile h.options = .ok m ∧ ∀ args,
      EndsWith m args ((elementAt? c.numbers i).elim (.reported "array index out of bounds") fun v => .returned (word v)) := by
  have hlength := c.length_words
  have hmax : maxSlots = 2 ^ 20 := rfl
  have hsmall : c.numbers.length < 2 ^ 31 := by omega
  have hshape : c.type.shape ≠ .map := fun h => hform (c.shape_eq_map.mp h)
  have hevaluates : Evaluates h.effects (.plainCall "at" [c.expr, I.literal i]) c.value (0 + 1 + c.words.length + 1)
      (0 + 1 + c.words.length + 1) (2 * c.words.length + 31) (.picks I i 0 c.header.length c.words) := by
    refine evaluates_index (.inl rfl) hrequire (by rw [if_neg hform]; exact hI) fun depth ctx hctx hinferrer => ?_
    obtain ⟨scope, depth', hinferrer⟩ := hinferrer
    rw [if_neg hshape]
    exact builds_element c hI hi (hctx ▸ hrequire) hsmall hinferrer
  have hcapacity : capacity = 2 ^ 59 := rfl
  obtain ⟨m, hcompile, hruns⟩ := Heading.compile_return hevaluates hT (by omega) (Nat.le_refl _) (by omega)
  refine ⟨m, hcompile, fun args => hruns args _ fun env m hm => ?_⟩
  have hpicks := picks_element env hm.toRoomy hI hi hform hsmall
  cases hv : elementAt? c.numbers i with
  | some v =>
    rw [hv] at hpicks
    obtain ⟨m', houtput, hpicks⟩ := hpicks
    exact Heading.returned_of_next hpicks rfl (houtput.trans hm.output)
  | none =>
    rw [hv] at hpicks
    exact Heading.reported_of_failed hpicks hm.output

def argumentsParameter : Expr :=
  .call [{ name := "array", templateArgs := ["string"] }] { name := "args", isBinding := true }

def printArgument (index : Expr) : Expr := .plainCall "print_line" [.plainCall "at" [.ident "args", index]]

def argumentsEnv : Check.Env := [("args", { type := { shape := .array, kind := .string }, mutable := false })]

def argumentsLocals : Locals := [("args", { slot := 0, mutable := false, type := { shape := .array, kind := .string } })]

section
variable {I : Scalar} {i : Int} {depth : Nat}

theorem check_printArgument {ctx : Check.Context} {cache : ReturnCache} (hI : I ≠ .bool)
    (hprint : ctx.effects.require "print_line" = .ok ()) :
    (Check.Checker.atDepth (depth + 3)).block ctx argumentsEnv [printArgument (I.literal i)] cache = .ok ((), cache) := by
  have hindex : (Check.Checker.atDepth (depth + 2)).expr ctx argumentsEnv (.plainCall "at" [.ident "args", I.literal i]) =
      pure (.value .string) := by
    cases I with
    | i32 | i64 | u64 => rfl
    | bool => exact absurd rfl hI
  have hstatement : (Check.Checker.atDepth (depth + 3)).statement ctx argumentsEnv (printArgument (I.literal i)) cache =
      .ok (argumentsEnv, cache) := by
    show (do
      ctx.effects.require "print_line"
      Check.checkPrint (.atDepth (depth + 2)) ctx argumentsEnv "print_line" (.plainCall "at" [.ident "args", I.literal i])
      return argumentsEnv : Check.Checking Check.Env) cache = _
    rw [hprint, Check.checkPrint, hindex]
    rfl
  exact bind_eq_ok.mpr ⟨_, _, bind_eq_ok.mpr ⟨_, _, hstatement, rfl⟩, rfl⟩

theorem builds_printArgument {ctx : Lower.Context} {scope : Scope} {depth' n : Nat} (hI : I ≠ .bool) (hi : I.Holds i)
    (hprint : ctx.effects.require "print_line" = .ok ()) (hinferrer : ctx.inferrer = .atDepth scope (depth' + 1)) :
    Builds n ((Emitter.atDepth (depth + 2)).block ctx argumentsLocals [printArgument (I.literal i)]) () (n + 1) (n + 1) 20
      (.picksArgument I i n) := by
  have hindex : Builds n (emitArgumentIndex (.atDepth (depth + 1)) ctx argumentsLocals
      { name := "at", args := [.ident "args", I.literal i], labels := [none, none] } true) () (n + 1) (n + 1) 19
      (.AndThen (.fills n [word i]) <| .AndThen (.ranges I n .countsArguments "array index out of bounds")
        (.pushes (·.slot n))) :=
    Builds.mono (.bind (builds_spillIndex hI hi hinferrer) (.bind (builds_checkRange hI builds_pushArgc) builds_load)) rfl
      (by omega) (by omega) fun _ _ _ => id
  have hprinted : Builds n (do
      emitArgumentIndex (.atDepth (depth + 1)) ctx argumentsLocals
        { name := "at", args := [.ident "args", I.literal i], labels := [none, none] } true
      emitWith .printArgv (PrintMode.flags { newline := true, stderr := false })) () (n + 1) (n + 1) 20
      (.picksArgument I i n) := Builds.mono (.bind hindex (builds_printArgv rfl)) rfl (by omega) (by omega) fun _ _ _ => id
  have hstatement : Builds n ((Emitter.atDepth (depth + 2)).statement ctx argumentsLocals (printArgument (I.literal i)))
      argumentsLocals (n + 1) (n + 1) 20 (.picksArgument I i n) := by
    show Builds n (do
      ctx.effects.require "print_line"
      lowerPrint (.atDepth (depth + 1)) ctx argumentsLocals "print_line" { newline := true, stderr := false }
        (.plainCall "at" [.ident "args", I.literal i])
      return argumentsLocals) _ _ _ _ _
    exact .lift hprint (.map hprinted)
  exact .map (g := fun _ => ()) (.map (g := id) hstatement)

end

namespace Heading
variable {h : Heading} {I : Scalar} {i : Int}

def ReturnsNothing (h : Heading) : Prop := h.returns? = none ∨ h.returns? = some .void

theorem returnInfo_void {inferred : List String → Definition → Recall Kind} (hvoid : h.ReturnsNothing) :
    ((h.entry [argumentsParameter] [printArgument (I.literal i)]).returnInfo inferred []).run [] =
      some (.ok .void, [("/main", .void)]) := by
  have hstruct : (h.entry [argumentsParameter] [printArgument (I.literal i)]).isStruct = false := h.notStruct
  have hdeclared : ReturnInfo.declared? (h.entry [argumentsParameter] [printArgument (I.literal i)]) = .ok h.returns? :=
    h.declared
  refine run_bind_eq_ok.mpr ⟨[], [], rfl, ?_⟩
  refine run_bind_eq_ok.mpr ⟨h.returns?, [], run_lift_eq_ok.mpr ⟨hdeclared, rfl⟩, ?_⟩
  rcases hvoid with hnone | hvoid
  · have hvalue : Returns.containsValue (h.entry [argumentsParameter] [printArgument (I.literal i)]).body = false := by
      cases I <;> rfl
    rw [hnone, hstruct]
    simp only [hvalue]
    rfl
  · rw [hvoid]
    rfl

end Heading

/-- Programs that print an argument of the run. -/
theorem runs_argument (h : Heading) (hI : I ≠ .bool) (hi : I.Holds i) (hvoid : h.ReturnsNothing)
    (hprint : h.effects.contains .ioOut = true) :
    ∃ m, (h.program [argumentsParameter] [printArgument (I.literal i)]).compile h.options = .ok m ∧
      ∀ args : Array String, args.size < 2 ^ 31 →
        EndsWith m args ((elementAt? args.toList i).elim (.reported "array index out of bounds") .printed) := by
  have hrequire : h.effects.require "print_line" = .ok () := if_pos hprint
  obtain ⟨depth, hdepth⟩ : ∃ depth, (h.program [argumentsParameter] [printArgument (I.literal i)]).depth = depth + 3 := ⟨_, rfl⟩
  have hcheck : (h.program [argumentsParameter] [printArgument (I.literal i)]).check "/main" h.defaults h.entryDefaults =
      .ok () :=
    Heading.check_ok rfl (Heading.returnInfo_void hvoid) (fun s hs => rfl) (hdepth ▸ check_printArgument hI hrequire) (.inl rfl)
  have hbody : Builds 1 ((Emitter.atDepth (depth + 3)).block
      (h.context [argumentsParameter] [printArgument (I.literal i)] .void) argumentsLocals [printArgument (I.literal i)]) ()
      2 2 20 (.picksArgument I i 1) := builds_printArgument hI hi hrequire rfl
  obtain ⟨l, hlowered, hruns⟩ := Heading.lowered_of_builds (Heading.returnInfo_void hvoid) rfl (by simp) (.inl rfl)
    (hdepth ▸ hbody) (by decide) (Nat.le_refl _) (by decide)
  refine ⟨_, Heading.compile_ok hcheck hlowered, fun args hargs => hruns args _ fun env m hm => ?_⟩
  have hpicks := picksArgument_text hm.toRoomy hI hi (hm.args.symm ▸ hargs)
  rw [hm.args, hm.output] at hpicks
  cases htext : elementAt? args.toList i with
  | some text =>
    rw [htext] at hpicks
    refine .inr ⟨rfl, _, hpicks, ?_⟩
    simp [Result.printed, Output.write]
  | none =>
    rw [htext, failed_eq_reported] at hpicks
    exact .inl hpicks

/-- Checked indices are exact. An array takes three slots besides its elements, and a vector four. -/
theorem at_literals (h : Heading) {I : Scalar} {i : Int} (hI : I ≠ .bool) (hi : I.Holds i) :
    (∀ (T : Scalar) (l : List Int), h.Returns T → (∀ v ∈ l, T.Holds v) → l.length + 3 ≤ maxSlots →
      ∃ m, (h.program [] [.ret (.plainCall "at" [.templateCall "array" [T.kind.typeName] (l.map T.literal),
          I.literal i])]).compile h.options = .ok m ∧
        ∀ args, EndsWith m args ((elementAt? l i).elim (.reported "array index out of bounds") fun v => .returned (word v))) ∧
    (∀ (T : Scalar) (l : List Int), h.Returns T → h.effects.contains .heapAlloc = true → (∀ v ∈ l, T.Holds v) →
      l.length + 4 ≤ maxSlots →
      ∃ m, (h.program [] [.ret (.plainCall "at" [.templateCall "vector" [T.kind.typeName] (l.map T.literal),
          I.literal i])]).compile h.options = .ok m ∧
        ∀ args, EndsWith m args ((elementAt? l i).elim (.reported "array index out of bounds") fun v => .returned (word v))) ∧
    (∀ text : String, h.Returns .i32 → text.utf8ByteSize < 2 ^ 31 →
      ∃ m, (h.program [] [.ret (.plainCall "at" [.string text, I.literal i])]).compile h.options = .ok m ∧
        ∀ args, EndsWith m args ((elementAt? text.toUTF8.data.toList i).elim (.reported "string index out of bounds") fun b =>
          .returned b.toUInt64)) ∧
    (h.ReturnsNothing → h.effects.contains .ioOut = true →
      ∃ m, (h.program [argumentsParameter] [printArgument (I.literal i)]).compile h.options = .ok m ∧
        ∀ args : Array String, args.size < 2 ^ 31 →
          EndsWith m args ((elementAt? args.toList i).elim (.reported "array index out of bounds") .printed)) := by
  refine ⟨fun T l hT hl hslots => ?_, fun T l hT hheap hl hslots => ?_, fun text hT hlength => ?_, fun hvoid hprint => ?_⟩
  · have hfits : (Collection.ofList .array nofun T l hl).words.length + 2 ≤ maxSlots := by
      rw [Collection.length_words, Nat.add_right_comm, Nat.add_comm]
      exact hslots
    have hruns := runs_element h (.ofList .array nofun T l hl) hI hi nofun hT rfl hfits
    rwa [Collection.expr_ofList] at hruns
  · have hfits : (Collection.ofList .vector nofun T l hl).words.length + 2 ≤ maxSlots := by
      rw [Collection.length_words, Nat.add_right_comm, Nat.add_comm]
      exact hslots
    have hruns := runs_element h (.ofList .vector nofun T l hl) hI hi nofun hT (if_pos hheap) hfits
    rwa [Collection.expr_ofList] at hruns
  · exact runs_byte h text hI hi hT hlength
  · exact runs_argument h hI hi hvoid hprint

/-- The index 1 into collections of two and of one, a text of two bytes, and two arguments. -/
theorem at_one : Scalar.u64.Holds 1 ∧
    (∃ m, (Heading.plain.program [] [.ret (.plainCall "at" [.templateCall "array" ["i64"]
        [Scalar.i64.literal 9, Scalar.i64.literal (-4)], Scalar.u64.literal 1])]).compile Heading.plain.options = .ok m ∧
      ∀ args, EndsWith m args (.returned (word (-4)))) ∧
    (∃ m, (Heading.plain.program [] [.ret (.plainCall "at" [.templateCall "vector" ["bool"] [Scalar.bool.literal 1],
        Scalar.u64.literal 1])]).compile Heading.plain.options = .ok m ∧
      ∀ args, EndsWith m args (.reported "array index out of bounds")) ∧
    (∃ m, (Heading.plain.program [] [.ret (.plainCall "at" [.string "é", Scalar.u64.literal 1])]).compile
        Heading.plain.options = .ok m ∧ ∀ args, EndsWith m args (.returned 169)) ∧
    ∃ m, (Heading.plain.program [argumentsParameter] [printArgument (Scalar.u64.literal 1)]).compile
        Heading.plain.options = .ok m ∧ EndsWith m #["a", "b"] (.printed "b") := by
  have hi : Scalar.u64.Holds 1 := ⟨by decide, by decide⟩
  obtain ⟨harray, hvector, htext, hargument⟩ := at_literals .plain (by decide) hi
  have hnumbers : ∀ v ∈ [9, -4], Scalar.i64.Holds v := by simp [Scalar.Holds]
  have htruths : ∀ v ∈ [1], Scalar.bool.Holds v := by simp [Scalar.Holds]
  obtain ⟨m, hcompile, hruns⟩ := hargument (.inl rfl) rfl
  exact ⟨hi, harray .i64 [9, -4] (.inl rfl) hnumbers (by decide), hvector .bool [1] (.inl rfl) rfl htruths (by decide),
    htext "é" (.inl rfl) (by decide), m, hcompile, hruns #["a", "b"] (by decide)⟩

end FlatCode
