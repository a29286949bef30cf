import FlatCode.Code.Binary
import FlatCode.Proofs.Monad

/-! The binary form of modules is a bijection. Each reader is paired with its writer (`Inverse`): it takes back what
    the writer puts down and leaves what follows, and it accepts nothing that the writer does not put down. The pairs
    are composed along the form, from the words up to the whole module. -/

namespace FlatCode.Binary
open Stateful

/-- A reader of the values that `Fits` admits, and the writer that it inverts. -/
structure Inverse {α : Type} (read : Reader α) (put : α → List UInt8) (Fits : α → Prop) : Prop where
  reads : ∀ {a : α} (rest : List UInt8), Fits a → read (put a ++ rest) = .ok (a, rest)
  puts : ∀ {bytes : List UInt8} {a : α} {rest : List UInt8},
    read bytes = .ok (a, rest) → Fits a ∧ bytes = put a ++ rest

theorem length_littleEndian (n value : Nat) : (littleEndian n value).length = n := by
  induction n generalizing value with
  | zero => rfl
  | succ n ih => rw [littleEndian, List.length_cons, ih]

theorem ofLittleEndian_littleEndian (n value : Nat) : ofLittleEndian (littleEndian n value) = value % 256 ^ n := by
  induction n generalizing value with
  | zero => simp [littleEndian, ofLittleEndian, Nat.mod_one]
  | succ n ih =>
    have hbyte : (UInt8.ofNat value).toNat = value % 256 := UInt8.toNat_ofNat'
    rw [littleEndian, ofLittleEndian, ih, hbyte, Nat.pow_succ', Nat.mod_mul]

theorem ofLittleEndian_lt (l : List UInt8) : ofLittleEndian l < 256 ^ l.length := by
  induction l with
  | nil => simp [ofLittleEndian]
  | cons b l ih =>
    have hb : b.toNat < 256 := b.toNat_lt
    rw [ofLittleEndian, List.length_cons, Nat.pow_succ']
    omega

theorem littleEndian_ofLittleEndian (l : List UInt8) : littleEndian l.length (ofLittleEndian l) = l := by
  induction l with
  | nil => rfl
  | cons b l ih =>
    have hb : b.toNat < 256 := b.toNat_lt
    have hlow : UInt8.ofNat (b.toNat + 256 * ofLittleEndian l) = b := by
      apply UInt8.toNat_inj.mp
      rw [UInt8.toNat_ofNat']
      omega
    have hhigh : (b.toNat + 256 * ofLittleEndian l) / 256 = ofLittleEndian l := by omega
    rw [List.length_cons, ofLittleEndian, littleEndian, hlow, hhigh, ih]

theorem take_append (part : Section) (l rest : List UInt8) : take part l.length (l ++ rest) = .ok (l, rest) := by
  simp [take]

variable {m : CodeModule} {bytes l rest : List UInt8} {n : Nat} {part : Section} {α : Type}

theorem take_eq_ok (h : take part n bytes = .ok (l, rest)) : l.length = n ∧ bytes = l ++ rest := by
  unfold take at h
  split at h
  case isTrue hn =>
    obtain ⟨rfl, rfl⟩ := Prod.mk.inj (Except.ok.inj h)
    exact ⟨List.length_take_of_le hn, (List.take_append_drop n bytes).symm⟩
  case isFalse => exact nomatch h

/-- The bytes of a number are taken as they were put down. -/
theorem take_littleEndian (part : Section) (n value : Nat) (rest : List UInt8) :
    take part n (littleEndian n value ++ rest) = .ok (littleEndian n value, rest) := by
  have := take_append part (littleEndian n value) rest
  rwa [length_littleEndian] at this

/-- Bytes that are taken are those of the number they write, which they are long enough for. -/
theorem littleEndian_of_take (h : take part n bytes = .ok (l, rest)) :
    ofLittleEndian l < 256 ^ n ∧ bytes = littleEndian n (ofLittleEndian l) ++ rest := by
  obtain ⟨rfl, rfl⟩ := take_eq_ok h
  exact ⟨ofLittleEndian_lt l, by rw [littleEndian_ofLittleEndian]⟩

theorem word32_inverse (part : Section) : Inverse (word32 part) putWord32 fun _ => True where
  reads {a} rest _ := by
    refine bind_eq_ok.mpr ⟨_, _, take_littleEndian part 4 a.toNat rest, pure_eq_ok.mpr ⟨?_, rfl⟩⟩
    have ha : a.toNat < 256 ^ 4 := a.toNat_lt
    rw [ofLittleEndian_littleEndian, Nat.mod_eq_of_lt ha, UInt32.ofNat_toNat]
  puts h := by
    obtain ⟨l, rest, htake, hpure⟩ := bind_eq_ok.mp h
    obtain ⟨rfl, rfl⟩ := pure_eq_ok.mp hpure
    obtain ⟨hlt, rfl⟩ := littleEndian_of_take htake
    exact ⟨trivial, by rw [putWord32, UInt32.toNat_ofNat_of_lt' hlt]⟩

theorem word64_inverse (part : Section) : Inverse (word64 part) putWord64 fun _ => True where
  reads {a} rest _ := by
    refine bind_eq_ok.mpr ⟨_, _, take_littleEndian part 8 a.toNat rest, pure_eq_ok.mpr ⟨?_, rfl⟩⟩
    have ha : a.toNat < 256 ^ 8 := a.toNat_lt
    rw [ofLittleEndian_littleEndian, Nat.mod_eq_of_lt ha, UInt64.ofNat_toNat]
  puts h := by
    obtain ⟨l, rest, htake, hpure⟩ := bind_eq_ok.mp h
    obtain ⟨rfl, rfl⟩ := pure_eq_ok.mp hpure
    obtain ⟨hlt, rfl⟩ := littleEndian_of_take htake
    exact ⟨trivial, by rw [putWord64, UInt64.toNat_ofNat_of_lt' hlt]⟩

/-- A count at the front of the bytes is read, and `k` reads what follows. -/
theorem word32_bind_putCount {k : UInt32 → Reader α}
    (bytes : List UInt8) : (word32 part >>= k) (putCount n ++ bytes) = k (UInt32.ofNat n) bytes := by
  have h : word32 part (putCount n ++ bytes) = .ok (UInt32.ofNat n, bytes) :=
    (word32_inverse part).reads bytes trivial
  show (word32 part (putCount n ++ bytes) >>= fun p => k p.1 p.2) = _
  rw [h]
  rfl

theorem Inverse.many {one : Reader α} {put : α → List UInt8} {Fits : α → Prop} (h : Inverse one put Fits) (n : Nat) :
    Inverse (many one n) (List.flatMap put) fun l => l.length = n ∧ ∀ a ∈ l, Fits a where
  reads {l} rest hl := by
    induction n generalizing l with
    | zero =>
      obtain rfl : l = [] := List.length_eq_zero_iff.mp hl.1
      rfl
    | succ n ih =>
      match l, hl with
      | a :: l, ⟨hlen, hfits⟩ =>
        have hrest := ih ⟨by simpa using hlen, fun b hb => hfits b (.tail a hb)⟩
        rw [List.flatMap_cons, List.append_assoc]
        exact bind_eq_ok.mpr ⟨a, _, h.reads _ (hfits a (.head l)), bind_eq_ok.mpr ⟨l, rest, hrest, rfl⟩⟩
  puts {bytes l rest} hread := by
    induction n generalizing bytes l with
    | zero =>
      obtain ⟨rfl, rfl⟩ := pure_eq_ok.mp hread
      simp
    | succ n ih =>
      obtain ⟨a, bytes', ha, hread⟩ := bind_eq_ok.mp hread
      obtain ⟨l', rest', hl', hread⟩ := bind_eq_ok.mp hread
      obtain ⟨rfl, rfl⟩ := pure_eq_ok.mp hread
      obtain ⟨hfit, rfl⟩ := h.puts ha
      obtain ⟨⟨rfl, hfits⟩, rfl⟩ := ih hl'
      refine ⟨⟨rfl, ?_⟩, by rw [List.flatMap_cons, List.append_assoc]⟩
      simpa using ⟨hfit, hfits⟩

/-- Bytes are the form of a text exactly if they read as it. -/
theorem fromUTF8?_eq_some_iff {s : String} : String.fromUTF8? ⟨l.toArray⟩ = some s ↔ l = utf8 s := by
  unfold String.fromUTF8? utf8
  constructor
  · intro h
    split at h
    case isTrue =>
      obtain rfl := Option.some.inj h
      rfl
    case isFalse => exact nomatch h
  · rintro rfl
    exact dif_pos s.isValidUTF8

theorem text_inverse (part : Section) : Inverse (text part) putText fun s => (utf8 s).length < 2 ^ 32 where
  reads {s} rest hs := by
    rw [text, putText, List.append_assoc, word32_bind_putCount]
    refine bind_eq_ok.mpr ⟨utf8 s, rest, ?_, ?_⟩
    · rw [UInt32.toNat_ofNat_of_lt' hs]
      exact take_append part (utf8 s) rest
    · rw [fromUTF8?_eq_some_iff.mpr rfl]
      rfl
  puts {bytes s rest} h := by
    obtain ⟨length, bytes', hlength, h₁⟩ := bind_eq_ok.mp h
    obtain ⟨l, rest', htake, h₂⟩ := bind_eq_ok.mp h₁
    obtain ⟨-, rfl⟩ := (word32_inverse part).puts hlength
    obtain ⟨hl, rfl⟩ := take_eq_ok htake
    cases hs : String.fromUTF8? ⟨l.toArray⟩ with
    | none =>
      rw [hs] at h₂
      exact absurd h₂ throw_ne_ok
    | some s' =>
      rw [hs] at h₂
      obtain ⟨rfl, rfl⟩ := pure_eq_ok.mp h₂
      obtain rfl := fromUTF8?_eq_some_iff.mp hs
      refine ⟨hl ▸ length.toNat_lt, ?_⟩
      rw [putText, hl, putCount, UInt32.ofNat_toNat, List.append_assoc]

theorem ofByte?_toByte (op : Opcode) : Opcode.ofByte? op.toByte = some op := by
  cases op <;> rfl

theorem toByte_of_ofByte? {b : UInt8} {op : Opcode} (h : Opcode.ofByte? b = some op) : op.toByte = b := by
  -- The table of opcodes is in the order of their numbers.
  have hidx : ∀ i : Fin Opcode.all.size, Opcode.all[i].ctorIdx = i := by decide
  unfold Opcode.ofByte? at h
  split at h
  case isTrue => exact nomatch h
  case isFalse hb =>
    obtain ⟨hlt, rfl⟩ := Array.getElem?_eq_some_iff.mp h
    have hpos : b.toNat ≠ 0 := fun h0 => hb (UInt8.toNat_inj.mp h0)
    have hnumber : Opcode.all[b.toNat - 1].ctorIdx = b.toNat - 1 := hidx ⟨_, hlt⟩
    rw [Opcode.toByte, hnumber, Nat.sub_add_cancel (Nat.pos_of_ne_zero hpos), UInt8.ofNat_toNat]

theorem instruction_inverse : Inverse instruction putInstruction fun _ => True where
  reads {i} rest _ := by
    have hbyte : byte .instructions (putInstruction i ++ rest) = .ok (i.op.toByte, putWord64 i.imm ++ rest) := rfl
    refine bind_eq_ok.mpr ⟨_, _, hbyte, ?_⟩
    rw [ofByte?_toByte]
    exact bind_eq_ok.mpr ⟨_, _, (word64_inverse .instructions).reads rest trivial, rfl⟩
  puts {bytes i rest} h := by
    obtain ⟨b, bytes', hbyte, h⟩ := bind_eq_ok.mp h
    cases hop : Opcode.ofByte? b with
    | none =>
      rw [hop] at h
      exact absurd h throw_ne_ok
    | some op =>
      rw [hop] at h
      obtain ⟨imm, rest', himm, h⟩ := bind_eq_ok.mp h
      obtain ⟨rfl, rfl⟩ := pure_eq_ok.mp h
      obtain ⟨-, rfl⟩ := (word64_inverse .instructions).puts himm
      cases bytes with
      | nil => exact nomatch hbyte
      | cons b' bytes =>
        obtain ⟨rfl, rfl⟩ := Prod.mk.inj (Except.ok.inj hbyte)
        exact ⟨trivial, by rw [putInstruction, toByte_of_ofByte? hop, List.cons_append]⟩

structure FunctionFits (f : CodeFunction) : Prop where
  name : (utf8 f.name).length < 2 ^ 32
  code : f.code.size < 2 ^ 32

theorem function_inverse : Inverse function putFunction FunctionFits where
  reads {f} rest hf := by
    have hcode := (instruction_inverse.many f.code.size).reads rest (a := f.code.toList) ⟨f.code.length_toList, by simp⟩
    rw [putFunction, List.append_assoc, List.append_assoc]
    refine bind_eq_ok.mpr ⟨_, _, (text_inverse .function).reads _ hf.name, ?_⟩
    rw [word32_bind_putCount, UInt32.toNat_ofNat_of_lt' hf.code]
    exact bind_eq_ok.mpr ⟨_, _, hcode, rfl⟩
  puts {bytes f rest} h := by
    obtain ⟨name, bytes₁, hname, h⟩ := bind_eq_ok.mp h
    obtain ⟨count, bytes₂, hcount, h⟩ := bind_eq_ok.mp h
    obtain ⟨code, bytes₃, hcode, h⟩ := bind_eq_ok.mp h
    obtain ⟨rfl, rfl⟩ := pure_eq_ok.mp h
    obtain ⟨hfits, rfl⟩ := (text_inverse .function).puts hname
    obtain ⟨-, rfl⟩ := (word32_inverse .function).puts hcount
    obtain ⟨⟨hlen, -⟩, rfl⟩ := (instruction_inverse.many count.toNat).puts hcode
    refine ⟨⟨hfits, ?_⟩, ?_⟩
    · rw [List.size_toArray, hlen]
      exact count.toNat_lt
    · rw [putFunction, List.size_toArray, hlen, putCount, UInt32.ofNat_toNat, List.append_assoc, List.append_assoc]

structure ModuleFits (m : CodeModule) : Prop where
  functionCount : m.functions.length < 2 ^ 32
  stringCount : m.strings.size < 2 ^ 32
  strings : ∀ s ∈ m.strings, (utf8 s).length < 2 ^ 32
  functions : ∀ f ∈ m.functions, FunctionFits f

/-- A module that can be written: its entry is one of its functions, and its counts and lengths fit. -/
structure Encodable (m : CodeModule) : Prop where
  fits : ModuleFits m
  entry : m.entry.toNat < m.functions.length

def putModule (m : CodeModule) : List UInt8 :=
  putWord32 magic ++ putWord32 version ++ putCount m.functions.length ++ putWord32 m.entry
    ++ putCount m.strings.size ++ m.strings.toList.flatMap putText ++ m.functions.flatMap putFunction

theorem codeModule_inverse : Inverse codeModule putModule ModuleFits where
  reads {m} rest hm := by
    have hstrings := ((text_inverse .strings).many m.strings.size).reads (m.functions.flatMap putFunction ++ rest)
      (a := m.strings.toList) ⟨m.strings.length_toList, by simpa using hm.strings⟩
    have hfunctions := (function_inverse.many m.functions.length).reads rest ⟨rfl, hm.functions⟩
    simp only [putModule, List.append_assoc]
    refine bind_eq_ok.mpr ⟨_, _, (word32_inverse .header).reads _ trivial, check_eq_ok.mpr ⟨by simp, ?_⟩⟩
    refine bind_eq_ok.mpr ⟨_, _, (word32_inverse .header).reads _ trivial, check_eq_ok.mpr ⟨by simp, ?_⟩⟩
    refine bind_eq_ok.mpr ⟨_, _, (word32_inverse .header).reads _ trivial, ?_⟩
    refine bind_eq_ok.mpr ⟨_, _, (word32_inverse .header).reads _ trivial, ?_⟩
    refine bind_eq_ok.mpr ⟨_, _, (word32_inverse .header).reads _ trivial, ?_⟩
    rw [UInt32.toNat_ofNat_of_lt' hm.functionCount, UInt32.toNat_ofNat_of_lt' hm.stringCount]
    exact bind_eq_ok.mpr ⟨_, _, hstrings, bind_eq_ok.mpr ⟨_, _, hfunctions, rfl⟩⟩
  puts {bytes m rest} h := by
    obtain ⟨word, bytes₁, hmagic, h₁⟩ := bind_eq_ok.mp h
    obtain ⟨hword, h₁⟩ := check_eq_ok.mp h₁
    obtain ⟨word', bytes₂, hversion, h₂⟩ := bind_eq_ok.mp h₁
    obtain ⟨hword', h₂⟩ := check_eq_ok.mp h₂
    obtain ⟨functionCount, bytes₃, hfunctionCount, h₃⟩ := bind_eq_ok.mp h₂
    obtain ⟨entry, bytes₄, hentry, h₄⟩ := bind_eq_ok.mp h₃
    obtain ⟨stringCount, bytes₅, hstringCount, h₅⟩ := bind_eq_ok.mp h₄
    obtain ⟨strings, bytes₆, hstrings, h₆⟩ := bind_eq_ok.mp h₅
    obtain ⟨functions, bytes₇, hfunctions, h₇⟩ := bind_eq_ok.mp h₆
    obtain ⟨rfl, rfl⟩ := pure_eq_ok.mp h₇
    obtain rfl : word = magic := by simpa using hword
    obtain rfl : word' = version := by simpa using hword'
    obtain ⟨-, rfl⟩ := (word32_inverse .header).puts hmagic
    obtain ⟨-, rfl⟩ := (word32_inverse .header).puts hversion
    obtain ⟨-, rfl⟩ := (word32_inverse .header).puts hfunctionCount
    obtain ⟨-, rfl⟩ := (word32_inverse .header).puts hentry
    obtain ⟨-, rfl⟩ := (word32_inverse .header).puts hstringCount
    obtain ⟨⟨hstringLength, hfits⟩, rfl⟩ := ((text_inverse .strings).many stringCount.toNat).puts hstrings
    obtain ⟨⟨hlength, hfits'⟩, rfl⟩ := (function_inverse.many functionCount.toNat).puts hfunctions
    refine ⟨⟨?_, ?_, by simpa using hfits, hfits'⟩, ?_⟩
    · rw [hlength]
      exact functionCount.toNat_lt
    · rw [List.size_toArray, hstringLength]
      exact stringCount.toNat_lt
    · simp only [putModule, List.size_toArray, hstringLength, hlength, putCount, UInt32.ofNat_toNat,
        List.append_assoc]

theorem encode_eq_ok_iff : encode m = .ok bytes ↔ m.entry.toNat < m.functions.length ∧ bytes = putModule m := by
  unfold encode
  split
  case isTrue h =>
    rw [Except.ok.injEq, eq_comm]
    exact (and_iff_right h).symm
  case isFalse h => exact ⟨nofun, fun h' => absurd h'.1 h⟩

theorem decode_eq_ok_iff :
    decode bytes = .ok m ↔ codeModule bytes = .ok (m, []) ∧ m.entry.toNat < m.functions.length := by
  unfold decode
  cases h : codeModule bytes with
  | error e => simp
  | ok p =>
    obtain ⟨m', rest⟩ := p
    cases rest with
    | cons b rest => simp
    | nil =>
      simp only [List.isEmpty_nil, Bool.not_true, Bool.false_eq_true, if_false, Except.ok.injEq, Prod.mk.injEq,
        and_true]
      split
      case isTrue hentry =>
        rw [Except.ok.injEq]
        exact ⟨fun h => ⟨h, h ▸ hentry⟩, fun h => h.1⟩
      case isFalse hentry => exact ⟨nofun, fun h => absurd h.2 (h.1 ▸ hentry)⟩

/-- The binary form is exact: a module is read back from what is written for it, and bytes that are read as a module
    are what is written for it, so that no module has two forms. -/
theorem encode_decode_exact (m : CodeModule) :
    (Encodable m → ∃ bytes, encode m = .ok bytes ∧ decode bytes = .ok m) ∧
      ∀ bytes, decode bytes = .ok m → Encodable m ∧ encode m = .ok bytes := by
  constructor
  · intro hm
    refine ⟨putModule m, encode_eq_ok_iff.mpr ⟨hm.entry, rfl⟩, decode_eq_ok_iff.mpr ⟨?_, hm.entry⟩⟩
    have := codeModule_inverse.reads [] hm.fits
    rwa [List.append_nil] at this
  · intro bytes h
    obtain ⟨hread, hentry⟩ := decode_eq_ok_iff.mp h
    obtain ⟨hfits, hbytes⟩ := codeModule_inverse.puts hread
    exact ⟨⟨hfits, hentry⟩, encode_eq_ok_iff.mpr ⟨hentry, by rw [hbytes, List.append_nil]⟩⟩

def sevenModule : CodeModule where
  functions := [{ name := "/main", code := #[{ op := .pushI32, imm := 7 }, { op := .returnI32 }] }]
  strings := #["é"]
  entry := 0

theorem sevenModule_encodable : Encodable sevenModule where
  fits := {
    functionCount := by decide
    stringCount := by decide
    strings := by simpa [sevenModule] using (by decide : (utf8 "é").length < 2 ^ 32)
    functions := by simpa [sevenModule] using ⟨by decide, by decide⟩ }
  entry := by decide

/-- The form of a module with one string and one function, and its reading. -/
theorem sevenModule_exact :
    (∃ bytes, encode sevenModule = .ok bytes ∧ decode bytes = .ok sevenModule) ∧
      ∀ bytes, decode bytes = .ok sevenModule → encode sevenModule = .ok bytes :=
  ⟨(encode_decode_exact sevenModule).1 sevenModule_encodable,
    fun bytes h => ((encode_decode_exact sevenModule).2 bytes h).2⟩

end FlatCode.Binary
