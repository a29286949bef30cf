import FlatCode.Program.Transform
import Mathlib.Data.List.Infix
import Mathlib.Data.List.TakeWhile

/-! Transforms are read back from their text. The list of a transform is split at the commas outside angle brackets, so
    each element must keep its own commas inside brackets that it closes itself. -/

namespace FlatCode

namespace Text

variable {l : List Char}

theorem dropWhile_of_trimChars (h : trimChars l = l) : l.dropWhile isBlank = l := by
  refine (List.dropWhile_suffix isBlank).eq_of_length_le ?_
  have hle : (trimChars l).length ≤ (l.dropWhile isBlank).length := by
    rw [trimChars, dropTail, List.length_reverse]
    exact ((List.dropWhile_suffix isBlank).length_le).trans (List.length_reverse ..).le
  rwa [h] at hle

theorem trimChars_append {blank : List Char} (hblank : ∀ c ∈ blank, isBlank c = true) :
    trimChars (blank ++ l) = trimChars l := by
  rw [trimChars, List.dropWhile_append_of_pos hblank, ← trimChars]

/-- A trimmed name with something in brackets after it is trimmed. -/
theorem trimChars_enclosed {name inner : List Char} {o c : Char} (hname : trimChars name = name)
    (ho : isBlank o = false) (hc : isBlank c = false) :
    trimChars (name ++ o :: (inner ++ [c])) = name ++ o :: (inner ++ [c]) := by
  have hfront : (name ++ o :: (inner ++ [c])).dropWhile isBlank = name ++ o :: (inner ++ [c]) := by
    rw [List.dropWhile_append, dropWhile_of_trimChars hname]
    split
    case isTrue hnil =>
      obtain rfl := List.isEmpty_iff.mp hnil
      rw [List.dropWhile_cons_of_neg (by simp [ho]), List.nil_append]
    case isFalse => rfl
  rw [trimChars, hfront, dropTail]
  simp [List.dropWhile_cons_of_neg, hc]

end Text

namespace Transform

/-- A text that can stand in the list of a transform: not blank at its ends, and with every comma inside angle brackets
    that it opens and closes. -/
structure Element (s : String) : Prop where
  nonempty : s ≠ ""
  trimmed : Text.trim s = s
  balanced : s.toList.count '<' = s.toList.count '>'
  opened : ∀ before, before <+: s.toList → before.count '>' ≤ before.count '<'
  commas : ∀ before, before ++ [','] <+: s.toList → before.count '>' < before.count '<'

def nesting (cs : List Char) : Int := cs.count '<' - cs.count '>'

theorem nesting_cons (c : Char) (cs : List Char) : nesting (c :: cs) = nesting [c] + nesting cs := by
  simp only [nesting, List.count_cons, List.count_nil]
  push_cast
  omega

variable {cs part rest inner name : List Char} {depth : Int} {o c : Char}

/-- Characters without a comma outside brackets are added to the part so far. -/
theorem splitParts_append
    (hcommas : ∀ before, before ++ [','] <+: cs → depth + nesting before ≠ 0) :
    splitParts depth part (cs ++ rest) = splitParts (depth + nesting cs) (cs.reverse ++ part) rest := by
  induction cs generalizing depth part with
  | nil => simp [nesting]
  | cons c cs ih =>
    have hstep : splitParts depth part (c :: (cs ++ rest)) =
        splitParts (depth + nesting [c]) (c :: part) (cs ++ rest) := by
      have hcomma : ¬(c = ',' ∧ depth = 0) := by
        rintro ⟨rfl, rfl⟩
        exact hcommas [] (List.prefix_append [','] cs) rfl
      rw [splitParts]
      by_cases hopen : c = '<'
      · rw [if_pos hopen, hopen]
        rfl
      · by_cases hclose : c = '>'
        · rw [if_neg hopen, if_pos hclose, hclose]
          rfl
        · rw [if_neg hopen, if_neg hclose, if_neg hcomma]
          simp [nesting, hopen, hclose]
    rw [List.cons_append, hstep, ih, nesting_cons c cs, Int.add_assoc, List.reverse_cons, List.append_assoc,
      List.singleton_append]
    intro before hbefore
    rw [Int.add_assoc, ← nesting_cons]
    exact hcommas (c :: before) (List.cons_prefix_cons.mpr ⟨rfl, hbefore⟩)

/-- An element is added to a blank part as a whole. -/
theorem Element.splitParts_append {s : String} (h : Element s) (part rest : List Char) :
    splitParts 0 part (s.toList ++ rest) = splitParts 0 (s.toList.reverse ++ part) rest := by
  rw [Transform.splitParts_append, nesting, h.balanced, Int.sub_self, Int.add_zero]
  intro before hbefore
  have := h.commas before hbefore
  rw [nesting]
  omega

theorem Element.trimChars {s : String} (h : Element s) : Text.trimChars s.toList = s.toList := by
  have := congrArg String.toList h.trimmed
  rwa [Text.trim, String.toList_ofList] at this

theorem splitParts_intercalate {s : String} {l : List String} (hs : Element s) (hl : ∀ s ∈ l, Element s)
    (hpart : ∀ c ∈ part, Text.isBlank c = true) :
    splitParts 0 part (", ".toList.intercalate ((s :: l).map String.toList)) = (s :: l).map String.toList := by
  have htrim : Text.trimChars (s.toList.reverse ++ part).reverse = s.toList := by
    rw [List.reverse_append, List.reverse_reverse, Text.trimChars_append (by simpa using hpart), hs.trimChars]
  induction l generalizing s part with
  | nil =>
    have happend := hs.splitParts_append part []
    rw [List.append_nil] at happend
    have hne : s.toList.isEmpty = false := by simpa using hs.nonempty
    rw [List.map_singleton, List.intercalate_singleton, happend, splitParts, htrim]
    simp [hne]
  | cons s' l ih =>
    obtain ⟨hs', hl⟩ := List.forall_mem_cons.mp hl
    -- The comma ends the part, and the blank after it starts the next one.
    have hblank : ∀ c ∈ [' '], Text.isBlank c = true := List.forall_mem_singleton.mpr rfl
    have hnext : splitParts 0 [' '] (", ".toList.intercalate ((s' :: l).map String.toList)) =
        (s' :: l).map String.toList := by
      refine ih hs' hl hblank ?_
      rw [List.reverse_append, List.reverse_reverse, Text.trimChars_append (by simpa using hblank), hs'.trimChars]
    rw [List.map_cons, List.map_cons, List.intercalate_cons_cons, List.append_assoc, hs.splitParts_append]
    show Text.trimChars (s.toList.reverse ++ part).reverse ::
      splitParts 0 [' '] (", ".toList.intercalate ((s' :: l).map String.toList)) = _
    rw [htrim, hnext, List.map_cons]

theorem split_intercalate {l : List String} (hl : ∀ s ∈ l, Element s) : split (", ".intercalate l).toList = l := by
  rw [split, String.toList_intercalate]
  cases l with
  | nil => rfl
  | cons s l =>
    obtain ⟨hs, hl⟩ := List.forall_mem_cons.mp hl
    rw [splitParts_intercalate hs hl (by simp), List.map_map]
    simp [Function.comp_def]

theorem bne_of_not_mem (h : o ∉ cs) : ∀ a ∈ cs, (a != o) = true :=
  fun _ ha => bne_iff_ne.mpr (ne_of_mem_of_not_mem ha h)

theorem bracketed?_enclosed (h : o ∉ name) :
    bracketed? o c (name ++ o :: (inner ++ [c])) = some (String.ofList (Text.trimChars name), split inner) := by
  rw [bracketed?, List.span_eq_takeWhile_dropWhile, List.takeWhile_append_of_pos (bne_of_not_mem h),
    List.dropWhile_append_of_pos (bne_of_not_mem h), List.takeWhile_cons_of_neg (by simp),
    List.dropWhile_cons_of_neg (by simp)]
  simp

theorem bracketed?_of_not_mem (h : o ∉ cs) : bracketed? o c cs = none := by
  rw [bracketed?, List.span_eq_takeWhile_dropWhile, List.dropWhile_eq_nil_iff.mpr (bne_of_not_mem h)]

theorem bracketed?_of_getLast? (h : cs.getLast? ≠ some c) : bracketed? o c cs = none := by
  rw [bracketed?, List.span_eq_takeWhile_dropWhile]
  split
  case h_1 => rfl
  case h_2 name b inner hspan =>
    refine if_neg fun hlast => h ?_
    have hcs := List.takeWhile_append_dropWhile (p := (· != o)) (l := cs)
    rw [(Prod.mk.inj hspan).2] at hcs
    rw [← hcs, List.getLast?_append, List.getLast?_cons, hlast]
    rfl

/-- What a transform must be for its text to tell its parts apart. -/
structure Readable (t : Transform) : Prop where
  oneList : t.templateArgs = [] ∨ t.arguments = []
  trimmed : Text.trim t.name = t.name
  plain : '<' ∉ t.name.toList ∧ '(' ∉ t.name.toList
  templateArgs : ∀ s ∈ t.templateArgs, Element s
  arguments : ∀ s ∈ t.arguments, Element s

@[simp] theorem listText_nil (opening closing : String) : listText opening closing [] = "" := rfl

theorem toList_listText {opening closing : String} {l : List String} (h : l ≠ []) :
    (listText opening closing l).toList = opening.toList ++ ((", ".intercalate l).toList ++ closing.toList) := by
  rw [listText, if_neg (by simpa using h), String.toList_append, String.toList_append, List.append_assoc]

theorem parse_of_render {t : Transform} (h : Readable t) : parse (render t) = t := by
  obtain ⟨name, templateArgs, arguments⟩ := t
  obtain ⟨hone, htrim, ⟨hangle, hround⟩, htemplates, harguments⟩ := h
  dsimp only at hone htrim hangle hround htemplates harguments
  have hname : Text.trimChars name.toList = name.toList := by
    have := congrArg String.toList htrim
    rwa [Text.trim, String.toList_ofList] at this
  by_cases hts : templateArgs = []
  · subst hts
    by_cases has : arguments = []
    · subst has
      have htext : render ⟨name, [], []⟩ = name := by simp [render]
      rw [parse, htext, hname, bracketed?_of_not_mem hangle, bracketed?_of_not_mem hround]
      simp
    · have htext : (render ⟨name, [], arguments⟩).toList =
          name.toList ++ '(' :: ((", ".intercalate arguments).toList ++ [')']) := by
        simp [render, toList_listText has]
      rw [parse, htext, Text.trimChars_enclosed hname rfl rfl, bracketed?_of_getLast? (by simp [List.getLast?_cons]),
        bracketed?_enclosed hround, hname, split_intercalate harguments]
      simp
  · obtain rfl : arguments = [] := hone.resolve_left hts
    have htext : (render ⟨name, templateArgs, []⟩).toList =
        name.toList ++ '<' :: ((", ".intercalate templateArgs).toList ++ ['>']) := by
      simp [render, toList_listText hts]
    rw [parse, htext, Text.trimChars_enclosed hname rfl rfl, bracketed?_enclosed hangle, hname,
      split_intercalate htemplates]
    simp

def nested : Transform where
  name := "map"
  templateArgs := ["i32", "Pair<i64, Pointer<f64>>"]

theorem nested_reads_back : Readable nested ∧ render nested = "map<i32, Pair<i64, Pointer<f64>>>" ∧
    parse "map<i32, Pair<i64, Pointer<f64>>>" = nested := by
  have helement : ∀ s ∈ nested.templateArgs, Element s := by
    intro s hs
    have hprefixes : (∀ before ∈ s.toList.inits, before.count '>' ≤ before.count '<') ∧
        ∀ before ∈ s.toList.inits, (before ++ [',']).isPrefixOf s.toList → before.count '>' < before.count '<' := by
      revert s
      decide
    refine ⟨by revert s; decide, by revert s; decide, by revert s; decide, ?_, ?_⟩
    · exact fun before hbefore => hprefixes.1 before ((List.mem_inits _ _).mpr hbefore)
    · exact fun before hbefore => hprefixes.2 before
        ((List.mem_inits _ _).mpr ((List.prefix_append before [',']).trans hbefore))
        (List.isPrefixOf_iff_prefix.mpr hbefore)
  have hreadable : Readable nested := ⟨.inr rfl, by decide, by decide, helement, nofun⟩
  have hrender : render nested = "map<i32, Pair<i64, Pointer<f64>>>" := by decide
  exact ⟨hreadable, hrender, hrender ▸ parse_of_render hreadable⟩

end Transform
end FlatCode
