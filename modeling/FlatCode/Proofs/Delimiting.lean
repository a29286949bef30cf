import FlatCode.Proofs.Encoding

/-! The binary form delimits itself: what is left of it when its end is cut off is found to be truncated, and what
    follows it is found to trail. A reader that is run on part of what it was to take runs out of bytes before it looks
    at anything that is not as it was put down; this is carried along the form from the words up to the module. -/

namespace FlatCode.Binary
open Stateful

variable {α β : Type} {read : Reader α} {k : α → Reader β} {a : α} {bytes bytes' : List UInt8} {part : Section}

/-- The reader runs out of bytes on whatever is left of the given ones when their end is cut off. -/
def Exhausts (read : Reader α) (bytes : List UInt8) : Prop :=
  ∀ cut more, bytes = cut ++ more → more ≠ [] → ∃ part, read cut = .error (.truncated part)

theorem Exhausts.nil : Exhausts read [] := fun _ _ h hmore => absurd (List.append_eq_nil_iff.mp h.symm).2 hmore

/-- A reader that runs out of bytes stops what comes after it. -/
theorem Exhausts.first (h : Exhausts read bytes) : Exhausts (read >>= k) bytes := fun cut more hcut hmore => by
  obtain ⟨part, hpart⟩ := h cut more hcut hmore
  exact ⟨part, by show (read cut >>= fun p => k p.1 p.2) = _; rw [hpart]; rfl⟩

theorem Exhausts.bind (h : Exhausts read bytes) (hread : ∀ rest, read (bytes ++ rest) = .ok (a, rest))
    (hk : Exhausts (k a) bytes') : Exhausts (read >>= k) (bytes ++ bytes') := by
  have hafter : ∀ cut more, bytes' = cut ++ more → more ≠ [] →
      ∃ part, (read >>= k) (bytes ++ cut) = .error (.truncated part) := fun cut more hcut hmore => by
    obtain ⟨part, hpart⟩ := hk cut more hcut hmore
    exact ⟨part, by show (read (bytes ++ cut) >>= fun p => k p.1 p.2) = _; rw [hread]; exact hpart⟩
  intro cut more hcut hmore
  -- The end of `cut` lies in what comes after the bytes of the first reader, in them, or between the two.
  obtain ⟨mid, rfl, hmid⟩ | ⟨mid, hmid, rfl⟩ := List.append_eq_append_iff.mp hcut
  · exact hafter mid more hmid hmore
  · by_cases hnil : mid = []
    · subst hnil
      obtain rfl : bytes = cut := hmid.trans (List.append_nil cut)
      have := hafter [] bytes' rfl hmore
      rwa [List.append_nil] at this
    · exact h.first cut mid hmid hnil

theorem Exhausts.many {one : Reader α} {put : α → List UInt8} {Fits : α → Prop} (hone : Inverse one put Fits)
    (h : ∀ a, Fits a → Exhausts one (put a)) {l : List α} (hl : ∀ a ∈ l, Fits a) :
    Exhausts (many one l.length) (l.flatMap put) := by
  induction l with
  | nil => exact .nil
  | cons a l ih =>
    obtain ⟨ha, hl⟩ := List.forall_mem_cons.mp hl
    exact .bind (h a ha) (fun rest => hone.reads rest ha) (ih hl).first

theorem exhausts_take (part : Section) (l : List UInt8) : Exhausts (take part l.length) l := by
  rintro cut more rfl hmore
  refine ⟨part, if_neg ?_⟩
  have := List.length_pos_iff.mpr hmore
  rw [List.length_append]
  omega

theorem exhausts_word32 (w : UInt32) : Exhausts (word32 part) (putWord32 w) := by
  have h := exhausts_take part (putWord32 w)
  rw [putWord32, length_littleEndian] at h
  exact h.first

theorem exhausts_word64 (w : UInt64) : Exhausts (word64 part) (putWord64 w) := by
  have h := exhausts_take part (putWord64 w)
  rw [putWord64, length_littleEndian] at h
  exact h.first

/-- A word at the front of the bytes is read, and `k` reads what follows. -/
theorem Exhausts.word32 {k : UInt32 → Reader β} {w : UInt32} (h : Exhausts (k w) bytes) :
    Exhausts (word32 part >>= k) (putWord32 w ++ bytes) :=
  .bind (exhausts_word32 w) (fun rest => (word32_inverse part).reads rest trivial) h

theorem exhausts_text {s : String} (hs : (utf8 s).length < 2 ^ 32) : Exhausts (text part) (putText s) := by
  refine .word32 (.first ?_)
  rw [UInt32.toNat_ofNat_of_lt' hs]
  exact exhausts_take part (utf8 s)

theorem exhausts_instruction (i : Instruction) : Exhausts instruction (putInstruction i) := by
  have hbyte : Exhausts (byte .instructions) [i.op.toByte] := by
    intro cut more hcut hmore
    obtain ⟨rfl, -⟩ | ⟨-, rfl⟩ := List.append_eq_singleton_iff.mp hcut.symm
    · exact ⟨_, rfl⟩
    · exact absurd rfl hmore
  refine .bind hbyte (fun rest => rfl) ?_
  rw [ofByte?_toByte]
  exact (exhausts_word64 i.imm).first

theorem exhausts_function {f : CodeFunction} (hf : FunctionFits f) : Exhausts function (putFunction f) := by
  rw [putFunction, List.append_assoc]
  refine .bind (exhausts_text hf.name) (fun rest => (text_inverse .function).reads rest hf.name) (.word32 (.first ?_))
  rw [UInt32.toNat_ofNat_of_lt' hf.code, ← Array.length_toList]
  exact .many instruction_inverse (fun i _ => exhausts_instruction i) fun _ _ => trivial

theorem exhausts_codeModule {m : CodeModule} (hm : ModuleFits m) : Exhausts codeModule (putModule m) := by
  have hstrings : ∀ s ∈ m.strings.toList, (utf8 s).length < 2 ^ 32 := by simpa using hm.strings
  have hread := ((text_inverse .strings).many m.strings.size).reads (a := m.strings.toList)
  simp only [putModule, List.append_assoc]
  refine .word32 (.word32 (.word32 (.word32 (.word32 ?_))))
  rw [UInt32.toNat_ofNat_of_lt' hm.functionCount, UInt32.toNat_ofNat_of_lt' hm.stringCount]
  refine .bind ?_ (fun rest => hread rest ⟨m.strings.length_toList, hstrings⟩) (.first ?_)
  · rw [← Array.length_toList]
    exact .many (text_inverse .strings) (fun _ hs => exhausts_text hs) hstrings
  · exact .many function_inverse (fun _ hf => exhausts_function hf) hm.functions

/-- The form of a module ends where it says: a beginning of it is truncated, in one of the parts of the form, and more
    bytes than it trail. -/
theorem decode_delimits {m : CodeModule} (hm : ModuleFits m) (h : encode m = .ok bytes) :
    (∀ cut, cut <+: bytes → cut ≠ bytes → ∃ fault, decode cut = .error fault ∧
      fault.message ∈ ["truncated IR header", "truncated IR string table", "truncated IR function",
        "truncated IR instructions"]) ∧
    ∀ more, more ≠ [] → ∃ fault, decode (bytes ++ more) = .error fault ∧
      fault.message = "trailing bytes after IR module" := by
  obtain ⟨-, rfl⟩ := encode_eq_ok_iff.mp h
  constructor
  · rintro cut ⟨more, hcut⟩ hne
    have hmore : more ≠ [] := fun hnil => hne (by rw [← hcut, hnil, List.append_nil])
    obtain ⟨part, hpart⟩ := exhausts_codeModule hm cut more hcut.symm hmore
    refine ⟨.truncated part, by rw [decode, hpart], ?_⟩
    cases part <;> decide
  · intro more hmore
    refine ⟨.trailing, ?_, rfl⟩
    rw [decode, codeModule_inverse.reads more hm]
    cases more with
    | nil => exact absurd rfl hmore
    | cons b more => rfl

/-- The form of a module of one string and one function, cut inside the string and followed by a byte. -/
theorem sevenModule_delimits : ∃ bytes, encode sevenModule = .ok bytes ∧
    (∃ fault, decode (bytes.take 25) = .error fault ∧ fault.message ∈ ["truncated IR header",
      "truncated IR string table", "truncated IR function", "truncated IR instructions"]) ∧
    ∃ fault, decode (bytes ++ [0]) = .error fault ∧ fault.message = "trailing bytes after IR module" := by
  have hencode : encode sevenModule = .ok (putModule sevenModule) :=
    encode_eq_ok_iff.mpr ⟨sevenModule_encodable.entry, rfl⟩
  have hdelimits := decode_delimits sevenModule_encodable.fits hencode
  refine ⟨_, hencode, hdelimits.1 _ (List.take_prefix _ _) ?_, hdelimits.2 [0] nofun⟩
  intro h
  exact absurd (congrArg List.length h) (by decide)

end FlatCode.Binary
