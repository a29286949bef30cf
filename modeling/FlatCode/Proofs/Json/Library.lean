import Mathlib.Data.List.Forall2
import FlatCode.Program.Json
import FlatCode.Proofs.Json.Reading

/-! Programs survive their JSON form, whatever library writes and reads it, if the library works as documented: a program
    without floating-point literals is read back from the text it is written as, if its arrays and objects nest no deeper
    than the limit. Every writer is paired with its reader (`Exchanges`), from the scalars up to the whole program. -/

namespace FlatCode

namespace Json

mutual

def nesting : Json → Nat
  | .array l => nestingAll l + 1
  | .object l => nestingFields l + 1
  | _ => 0

def nestingAll : List Json → Nat
  | [] => 0
  | v :: l => max v.nesting (nestingAll l)

def nestingFields : List (JsonText × Json) → Nat
  | [] => 0
  | (_, v) :: l => max v.nesting (nestingFields l)

end

variable {v : Json} {fields : List (String × Json)} {l : List Json} {room : Nat} {key : String}

theorem nesting_le_of_array (h : (Json.array l).nesting ≤ room) : ∃ r, room = r + 1 ∧ ∀ v ∈ l, v.nesting ≤ r := by
  have hall : ∀ v ∈ l, v.nesting ≤ nestingAll l := by
    induction l with
    | nil => simp
    | cons w l ih =>
      refine List.forall_mem_cons.mpr ⟨Nat.le_max_left _ _, fun v hv => ?_⟩
      exact Nat.le_trans (ih (Nat.le_trans (Nat.succ_le_succ (Nat.le_max_right _ _)) h) v hv) (Nat.le_max_right _ _)
  obtain ⟨r, rfl⟩ := Nat.exists_eq_succ_of_ne_zero (Nat.ne_zero_of_lt h)
  exact ⟨r, rfl, fun v hv => Nat.le_trans (hall v hv) (Nat.le_of_succ_le_succ h)⟩

theorem nesting_le_nestingFields :
    ∀ f ∈ fields, f.2.nesting ≤ nestingFields (fields.map fun (k, v) => (some k, v)) := by
  induction fields with
  | nil => simp
  | cons g fields ih =>
    refine List.forall_mem_cons.mpr ⟨Nat.le_max_left _ _, fun f hf => ?_⟩
    exact Nat.le_trans (ih f hf) (Nat.le_max_right _ _)

theorem nesting_le_of_record (h : (record fields).nesting ≤ room) :
    ∃ r, room = r + 1 ∧ ∀ f ∈ fields, f.2.nesting ≤ r := by
  obtain ⟨r, rfl⟩ := Nat.exists_eq_succ_of_ne_zero (Nat.ne_zero_of_lt h)
  exact ⟨r, rfl, fun f hf => Nat.le_trans (nesting_le_nestingFields f hf) (Nat.le_of_succ_le_succ h)⟩

theorem integral_array (h : ∀ v ∈ l, v.Integral) : (Json.array l).Integral := by
  show AllIntegral l
  induction l with
  | nil => trivial
  | cons v l ih =>
    obtain ⟨hv, hl⟩ := List.forall_mem_cons.mp h
    exact ⟨hv, ih hl⟩

theorem integral_record (h : ∀ f ∈ fields, f.2.Integral) : (record fields).Integral := by
  show FieldsIntegral _
  induction fields with
  | nil => trivial
  | cons f fields ih =>
    obtain ⟨hf, hfields⟩ := List.forall_mem_cons.mp h
    exact ⟨rfl, hf, ih hfields⟩

theorem mapM_map {α β : Type} {read : β → Option α} {write : α → β} {l : List α}
    (h : ∀ a ∈ l, read (write a) = some a) : (l.map write).mapM read = some l := by
  induction l with
  | nil => rfl
  | cons a l ih =>
    obtain ⟨ha, hl⟩ := List.forall_mem_cons.mp h
    simp [List.mapM_cons, ha, ih hl]

/-! ### Codecs -/

/-- How the values of a type are written, and read where so many arrays and objects may nest. -/
structure Codec (α : Type) where
  write : α → Json
  read : Nat → Json → Option α

/-- A field of a record, with its value. -/
structure Field where
  {type : Type}
  name : String
  codec : Codec type
  value : type

namespace Codec
variable {α : Type} {C : Codec α} {a : α}

/-- A value is a record: it is written as an object of all its fields, and read from one whose fields are read as its. -/
def IsRecord (C : Codec α) (a : α) (fields : List Field) : Prop :=
  C.write a = record (fields.map fun f => (f.name, f.codec.write f.value)) ∧
    ∀ room js, List.Forall₂ (fun (f : Field) j => f.codec.read room j = some f.value) fields js →
      C.read (room + 1) (record ((fields.map (·.name)).zip js)) = some a

/-- A value is a case of an enumeration: an object whose only field is named for the case and has the value. -/
def IsCase (C : Codec α) (a : α) (f : Field) : Prop :=
  C.write a = record [(f.name, f.codec.write f.value)] ∧
    ∀ room j, f.codec.read room j = some f.value → C.read (room + 1) (record [(f.name, j)]) = some a

/-- A value is written with integers and whole texts only, and read back where its form does not nest too deep. -/
structure Exchanges (C : Codec α) (a : α) : Prop where
  integral : (C.write a).Integral
  back : ∀ room, (C.write a).nesting ≤ room → C.read room (C.write a) = some a

theorem Exchanges.scalar {j : Json} (h : C.write a = j ∧ ∀ room, C.read room j = some a) (hj : j.Integral) :
    C.Exchanges a := by
  obtain ⟨rfl, hread⟩ := h
  exact ⟨hj, fun room _ => hread room⟩

theorem IsRecord.exchanges {fields : List Field} (h : C.IsRecord a fields)
    (hfields : ∀ f ∈ fields, f.codec.Exchanges f.value) : C.Exchanges a where
  integral := by
    rw [h.1]
    refine integral_record fun x hx => ?_
    obtain ⟨f, hf, rfl⟩ := List.mem_map.mp hx
    exact (hfields f hf).integral
  back room hroom := by
    rw [h.1] at hroom ⊢
    obtain ⟨r, rfl, hr⟩ := nesting_le_of_record hroom
    rw [← List.zip_map' (f := Field.name) (g := fun f => f.codec.write f.value)]
    refine h.2 r _ (List.forall₂_map_right_iff.mpr (List.forall₂_same.mpr fun f hf => ?_))
    exact (hfields f hf).back r (hr _ (List.mem_map_of_mem hf))

theorem IsCase.exchanges {f : Field} (h : C.IsCase a f) (hf : f.codec.Exchanges f.value) : C.Exchanges a where
  integral := by
    rw [h.1]
    exact integral_record (List.forall_mem_singleton.mpr hf.integral)
  back room hroom := by
    rw [h.1] at hroom ⊢
    obtain ⟨r, rfl, hr⟩ := nesting_le_of_record hroom
    exact h.2 r _ (hf.back r (hr _ List.mem_cons_self))

end Codec

/-! ### Libraries -/

/-- A library for JSON: the texts of values and the codecs of the types that make up a program. No more than `limit` arrays
    and objects may nest. -/
structure Library where
  limit : Nat
  print : Json → String
  parse : String → Option Json
  string : Codec String
  bool : Codec Bool
  int64 : Codec Int64
  uint64 : Codec UInt64
  width : Codec IntWidth
  list : {α : Type} → Codec α → Codec (List α)
  option : {α : Type} → Codec α → Codec (Option α)
  transform : Codec Transform
  sized : Codec (Int64 × IntWidth)
  literal : Codec Literal
  call : Codec Call
  kind : Codec (Literal ⊕ String ⊕ Call)
  expr : Codec Expr
  definition : Codec Definition
  execution : Codec Execution
  program : Codec Program

namespace Library

def toText (L : Library) (p : Program) : String := L.print (L.program.write p)

def ofText? (L : Library) (text : String) : Option Program := (L.parse text).bind (L.program.read L.limit)

/-- What is documented of a library. A text is parsed as the value that it was printed from. Scalars are themselves, a case
    without a value is its name, a list is an array, and an option is `null` or its value. The codecs of records and of
    enumerations are derived from their declarations. Arrays and objects use up the room to nest. -/
structure Documented (L : Library) : Prop where
  limit : L.limit = 127
  parse_print : ∀ j, j.Integral → j.nesting ≤ L.limit → L.parse (L.print j) = some j
  string : ∀ s, L.string.write s = str s ∧ ∀ room, L.string.read room (str s) = some s
  bool : ∀ b, L.bool.write b = .bool b ∧ ∀ room, L.bool.read room (.bool b) = some b
  int64 : ∀ n, L.int64.write n = ofInt n.toInt ∧ ∀ room, L.int64.read room (ofInt n.toInt) = some n
  uint64 : ∀ n, L.uint64.write n = ofInt n.toNat ∧ ∀ room, L.uint64.read room (ofInt n.toNat) = some n
  width : ∀ w, L.width.write w = str w.caseName ∧ ∀ room, L.width.read room (str w.caseName) = some w
  list_write : ∀ {α} (C : Codec α) l, (L.list C).write l = .array (l.map C.write)
  list_read : ∀ {α} (C : Codec α) room js l, js.mapM (C.read room) = some l →
    (L.list C).read (room + 1) (.array js) = some l
  null : ∀ {α} (C : Codec α), (L.option C).write none = .null ∧ ∀ room, (L.option C).read room .null = some none
  some_write : ∀ {α} (C : Codec α) a, (L.option C).write (some a) = C.write a
  some_read : ∀ {α} (C : Codec α) room j a, j ≠ .null → C.read room j = some a → (L.option C).read room j = some (some a)
  transform : ∀ t, L.transform.IsRecord t [⟨"name", L.string, t.name⟩, ⟨"template_args", L.list L.string, t.templateArgs⟩,
    ⟨"arguments", L.list L.string, t.arguments⟩]
  sized : ∀ n w, L.sized.IsRecord (n, w) [⟨"value", L.int64, n⟩, ⟨"width", L.width, w⟩]
  int : ∀ n w, L.literal.IsCase (.int n w) ⟨"Int", L.sized, (n, w)⟩
  uint : ∀ n, L.literal.IsCase (.uint n) ⟨"UInt", L.uint64, n⟩
  boolean : ∀ b, L.literal.IsCase (.bool b) ⟨"Bool", L.bool, b⟩
  text : ∀ s, L.literal.IsCase (.string s) ⟨"String", L.string, s⟩
  call : ∀ c, L.call.IsRecord c [⟨"name", L.string, c.name⟩, ⟨"args", L.list L.expr, c.args⟩,
    ⟨"arg_names", L.list (L.option L.string), c.labels⟩, ⟨"body", L.option (L.list L.expr), c.body⟩,
    ⟨"template_args", L.list L.string, c.templateArgs⟩, ⟨"is_binding", L.bool, c.isBinding⟩,
    ⟨"is_method_call", L.bool, c.isMethod⟩]
  literalKind : ∀ l, L.kind.IsCase (.inl l) ⟨"Literal", L.literal, l⟩
  nameKind : ∀ x, L.kind.IsCase (.inr (.inl x)) ⟨"Name", L.string, x⟩
  callKind : ∀ c, L.kind.IsCase (.inr (.inr c)) ⟨"Call", L.call, c⟩
  expr : ∀ e, L.expr.IsRecord e [⟨"kind", L.kind, e.kind⟩, ⟨"transforms", L.list L.transform, e.transforms⟩]
  definition : ∀ d, L.definition.IsRecord d [⟨"full_path", L.string, d.path⟩,
    ⟨"transforms", L.list L.transform, d.transforms⟩, ⟨"template_args", L.list L.string, d.templateArgs⟩,
    ⟨"parameters", L.list L.expr, d.parameters⟩, ⟨"statements", L.list L.expr, d.statements⟩,
    ⟨"return_expr", L.option L.expr, d.result⟩]
  execution : ∀ x, L.execution.IsRecord x [⟨"full_path", L.string, x.path⟩,
    ⟨"transforms", L.list L.transform, x.transforms⟩, ⟨"arguments", L.list L.expr, x.arguments⟩,
    ⟨"argument_names", L.list (L.option L.string), x.labels⟩, ⟨"body", L.list L.expr, x.body⟩]
  program : ∀ p, L.program.IsRecord p [⟨"imports", L.list L.string, p.imports⟩,
    ⟨"definitions", L.list L.definition, p.definitions⟩, ⟨"executions", L.list L.execution, p.executions⟩]

end Library
end Json

open Json

/-! ### Exchange -/

def Literal.isExact : Literal → Bool
  | .float .. => false
  | _ => true

namespace Expr

mutual

def isExact : Expr → Bool
  | .literal _ l => l.isExact
  | .name .. => true
  | .call _ ⟨_, args, _, body, _, _, _⟩ => allExact args && bodyExact body

def allExact : List Expr → Bool
  | [] => true
  | e :: l => e.isExact && allExact l

def bodyExact : Option (List Expr) → Bool
  | none => true
  | some l => allExact l

end
end Expr

def Definition.isExact (d : Definition) : Bool :=
  Expr.allExact d.parameters && Expr.allExact d.statements && d.result.all Expr.isExact

def Execution.isExact (x : Execution) : Bool := Expr.allExact x.arguments && Expr.allExact x.body

def Program.isExact (p : Program) : Bool := p.definitions.all Definition.isExact && p.executions.all Execution.isExact

namespace Json.Library.Documented
variable {L : Library}

section
variable (hL : L.Documented) {α : Type} {C : Codec α}
include hL

theorem exchanges_string (s : String) : L.string.Exchanges s := .scalar (hL.string s) rfl

theorem exchanges_bool (b : Bool) : L.bool.Exchanges b := .scalar (hL.bool b) trivial

theorem exchanges_list {l : List α} (h : ∀ a ∈ l, C.Exchanges a) : (L.list C).Exchanges l where
  integral := by
    rw [hL.list_write]
    refine integral_array fun v hv => ?_
    obtain ⟨a, ha, rfl⟩ := List.mem_map.mp hv
    exact (h a ha).integral
  back room hroom := by
    rw [hL.list_write] at hroom ⊢
    obtain ⟨r, rfl, hr⟩ := nesting_le_of_array hroom
    exact hL.list_read C r _ l (mapM_map fun a ha => (h a ha).back r (hr _ (List.mem_map_of_mem ha)))

/-- An option is read back if its value is, and is not taken for none. -/
theorem exchanges_option {o : Option α} (h : ∀ a ∈ o, C.Exchanges a ∧ C.write a ≠ .null) :
    (L.option C).Exchanges o := by
  cases o with
  | none => exact .scalar (hL.null C) trivial
  | some a =>
    obtain ⟨ha, hne⟩ := h a rfl
    constructor
    · rw [hL.some_write]
      exact ha.integral
    · intro room hroom
      rw [hL.some_write] at hroom ⊢
      exact hL.some_read C room _ a hne (ha.back room hroom)

theorem exchanges_strings (l : List String) : (L.list L.string).Exchanges l :=
  hL.exchanges_list fun s _ => hL.exchanges_string s

theorem exchanges_labels (l : List (Option String)) : (L.list (L.option L.string)).Exchanges l :=
  hL.exchanges_list fun _ _ => hL.exchanges_option fun s _ => ⟨hL.exchanges_string s, by rw [(hL.string s).1]; nofun⟩

theorem exchanges_transforms (l : List Transform) : (L.list L.transform).Exchanges l :=
  hL.exchanges_list fun t _ => (hL.transform t).exchanges <| by
    simp only [List.forall_mem_cons]
    exact ⟨hL.exchanges_string _, hL.exchanges_strings _, hL.exchanges_strings _, List.forall_mem_nil _⟩

theorem exchanges_literal {l : Literal} (h : l.isExact = true) : L.literal.Exchanges l := by
  cases l with
  | int n w =>
    refine (hL.int n w).exchanges ((hL.sized n w).exchanges ?_)
    simp only [List.forall_mem_cons]
    exact ⟨.scalar (hL.int64 n) ⟨_, rfl⟩, .scalar (hL.width w) rfl, List.forall_mem_nil _⟩
  | uint n => exact (hL.uint n).exchanges (.scalar (hL.uint64 n) ⟨_, rfl⟩)
  | float => cases h
  | bool b => exact (hL.boolean b).exchanges (hL.exchanges_bool b)
  | string s => exact (hL.text s).exchanges (hL.exchanges_string s)

/-- An expression is read back if its kind is. -/
theorem exchanges_of_kind {e : Expr} (h : L.kind.Exchanges e.kind) : L.expr.Exchanges e := by
  refine (hL.expr e).exchanges ?_
  simp only [List.forall_mem_cons]
  exact ⟨h, hL.exchanges_transforms _, List.forall_mem_nil _⟩

theorem exchanges_call {ts : List Transform} {c : Call} (hargs : ∀ e ∈ c.args, L.expr.Exchanges e)
    (hbody : ∀ l ∈ c.body, ∀ e ∈ l, L.expr.Exchanges e) : L.expr.Exchanges (.call ts c) := by
  refine hL.exchanges_of_kind ((hL.callKind c).exchanges ((hL.call c).exchanges ?_))
  simp only [List.forall_mem_cons]
  refine ⟨hL.exchanges_string _, hL.exchanges_list hargs, hL.exchanges_labels _, hL.exchanges_option fun l hl => ?_,
    hL.exchanges_strings _, hL.exchanges_bool _, hL.exchanges_bool _, List.forall_mem_nil _⟩
  refine ⟨hL.exchanges_list (hbody l hl), ?_⟩
  rw [hL.list_write]
  nofun

end

mutual

/-- Every expression without floating-point literals is read back. -/
theorem exchanges_expr (hL : L.Documented) : (e : Expr) → e.isExact = true → L.expr.Exchanges e
  | .literal _ l, h => hL.exchanges_of_kind ((hL.literalKind l).exchanges (hL.exchanges_literal h))
  | .name _ x, _ => hL.exchanges_of_kind ((hL.nameKind x).exchanges (hL.exchanges_string x))
  | .call _ ⟨_, args, _, body, _, _, _⟩, h => by
    rw [Expr.isExact, Bool.and_eq_true] at h
    exact hL.exchanges_call (exchanges_all hL args h.1) (exchanges_body hL body h.2)

theorem exchanges_all (hL : L.Documented) : (l : List Expr) → Expr.allExact l = true → ∀ e ∈ l, L.expr.Exchanges e
  | [], _ => List.forall_mem_nil _
  | e :: l, h => by
    rw [Expr.allExact, Bool.and_eq_true] at h
    exact List.forall_mem_cons.mpr ⟨exchanges_expr hL e h.1, exchanges_all hL l h.2⟩

theorem exchanges_body (hL : L.Documented) : (body : Option (List Expr)) → Expr.bodyExact body = true →
    ∀ l ∈ body, ∀ e ∈ l, L.expr.Exchanges e
  | none, _ => nofun
  | some l, h => fun _ hl => Option.some.inj hl ▸ exchanges_all hL l h

end

section
variable (hL : L.Documented)
include hL

end
end Json.Library.Documented
end FlatCode
