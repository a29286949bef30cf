import Mathlib.Data.Nat.Find
import Mathlib.Tactic.Choose
import FlatCode.Arguments
import FlatCode.Program.Build
import FlatCode.Proofs.Monad

/-! What matching arguments to parameters means. The arguments take slots one after the other: a labelled one that of the
    first parameter of its name, any other the least slot still free. Matching succeeds if no label is repeated, each
    argument finds a slot and each slot left free has a default, and then every argument fills the slot that it took.
    The cursor is right because every slot behind it is taken. -/

namespace FlatCode.Arguments
open Stateful

variable {callee : String} {params : List Expr}

/-! ### Taking slots -/

def labelsOf (count : Nat) (labels : List (Option String)) : List (Option String) :=
  (List.range count).map fun i => (labels[i]?).join

def FirstNamed (params : List Expr) (name : String) (slot : Nat) : Prop :=
  (params[slot]?).bind Expr.boundName? = some name ∧ ∀ k < slot, (params[k]?).bind Expr.boundName? ≠ some name

/-- The slot of an argument with this label, where those in `taken` are taken. -/
inductive Slot (params : List Expr) (taken : List Nat) : Option String → Nat → Prop
  | labelled {name slot} (hname : FirstNamed params name slot) (hfree : slot ∉ taken) :
    Slot params taken (some name) slot
  | positional {slot} (hslot : slot < params.length) (hfree : slot ∉ taken) (hleast : ∀ k < slot, k ∈ taken) :
    Slot params taken none slot

/-- The slots that arguments with these labels take one after the other, where those in `taken` are taken. -/
inductive Takes (params : List Expr) : List Nat → List (Option String) → List Nat → Prop
  | nil {taken} : Takes params taken [] []
  | cons {taken slots label labels slot} (hslot : Slot params taken label slot)
    (hrest : Takes params (taken ++ [slot]) labels slots) : Takes params taken (label :: labels) (slot :: slots)

variable {filled : List (Option Nat)} {after before labels : List (Option String)} {r : List Filling}
  {slots taken : List Nat} {count cursor cursor' k slot' : Nat} {label : Option String} {name : String}

theorem findIdx?_boundName {slot : Nat} :
    params.findIdx? (·.boundName? == some name) = some slot ↔ FirstNamed params name slot := by
  rw [List.findIdx?_eq_some_iff_getElem]
  constructor
  · rintro ⟨hslot, hname, hbefore⟩
    refine ⟨by simpa [hslot] using hname, fun k hk => ?_⟩
    simpa [Nat.lt_trans hk hslot] using hbefore k hk
  · rintro ⟨hname, hbefore⟩
    obtain ⟨param, hparam, hbound⟩ := Option.bind_eq_some_iff.mp hname
    obtain ⟨hslot, rfl⟩ := List.getElem?_eq_some_iff.mp hparam
    refine ⟨hslot, by simpa using hbound, fun k hk => ?_⟩
    simpa [Nat.lt_trans hk hslot] using hbefore k hk

theorem FirstNamed.unique {slot : Nat} (h : FirstNamed params name slot)
    (h' : FirstNamed params name slot') : slot = slot' :=
  Option.some.inj ((findIdx?_boundName.mpr h).symm.trans (findIdx?_boundName.mpr h'))

theorem exists_firstNamed : (∃ slot, FirstNamed params name slot) ↔ ∃ param ∈ params, param.boundName? = some name := by
  simp only [← findIdx?_boundName, ← Option.isSome_iff_exists, List.findIdx?_isSome, List.any_eq_true, beq_iff_eq]

theorem Slot.lt_length {slot : Nat} (h : Slot params taken label slot) : slot < params.length := by
  cases h with
  | labelled hname _ =>
    obtain ⟨param, hparam, -⟩ := Option.bind_eq_some_iff.mp hname.1
    exact (List.getElem?_eq_some_iff.mp hparam).1
  | positional hslot => exact hslot

theorem Slot.free {slot : Nat} (h : Slot params taken label slot) : slot ∉ taken := by
  cases h <;> assumption

theorem Slot.unique {slot : Nat} (h : Slot params taken label slot)
    (h' : Slot params taken label slot') : slot = slot' := by
  cases h with
  | labelled hname _ =>
    cases h' with
    | labelled hname' _ => exact hname.unique hname'
  | positional _ hfree hleast =>
    cases h' with
    | positional _ hfree' hleast' =>
      -- The smaller of the two would be taken.
      rcases Nat.lt_trichotomy slot slot' with hlt | heq | hgt
      · exact absurd (hleast' slot hlt) hfree
      · exact heq
      · exact absurd (hleast slot' hgt) hfree'

theorem Takes.unique {slots' : List Nat} (h : Takes params taken labels slots)
    (h' : Takes params taken labels slots') : slots = slots' := by
  induction h generalizing slots' with
  | nil =>
    cases h'
    rfl
  | cons hslot _ ih =>
    cases h' with
    | cons hslot' hrest' =>
      obtain rfl := hslot.unique hslot'
      rw [ih hrest']

theorem Takes.length_eq (h : Takes params taken labels slots) : slots.length = labels.length := by
  induction h with
  | nil => rfl
  | cons _ _ ih => rw [List.length_cons, List.length_cons, ih]

/-- What is taken in two stretches. -/
theorem takes_append :
    Takes params taken (before ++ after) slots ↔
      ∃ first second, slots = first ++ second ∧ Takes params taken before first ∧
        Takes params (taken ++ first) after second := by
  induction before generalizing taken slots with
  | nil =>
    constructor
    · exact fun h => ⟨[], slots, rfl, .nil, by rwa [List.append_nil]⟩
    · rintro ⟨_, second, rfl, h, hsecond⟩
      cases h
      rwa [List.append_nil] at hsecond
  | cons label before ih =>
    constructor
    · intro h
      cases h with
      | cons hslot hrest =>
        obtain ⟨first, second, rfl, hfirst, hsecond⟩ := ih.mp hrest
        exact ⟨_ :: first, second, rfl, .cons hslot hfirst, by rwa [List.append_cons]⟩
    · rintro ⟨_, second, rfl, h, hsecond⟩
      cases h with
      | cons hslot hfirst =>
        rw [List.append_cons] at hsecond
        exact .cons hslot (ih.mpr ⟨_, second, rfl, hfirst, hsecond⟩)

/-- The slot of the argument after those with labels `before`. -/
theorem Takes.slot (h : Takes params [] (before ++ label :: after) slots) :
    ∃ first slot, Takes params [] before first ∧ Slot params first label slot ∧ slots[before.length]? = some slot ∧
      first = slots.take before.length := by
  obtain ⟨first, second, rfl, hfirst, hsecond⟩ := takes_append.mp h
  cases hsecond with
  | @cons _ rest _ _ slot hslot hrest =>
    refine ⟨first, slot, hfirst, hslot, ?_, ?_⟩
    · simp [← hfirst.length_eq]
    · simp [← hfirst.length_eq]

/-! ### Placing follows the slots -/

/-- The arguments so far have taken these slots, and the cursor has no free slot behind it. -/
structure Placed (params : List Expr) (slots : List Nat) (filled : List (Option Nat)) (cursor : Nat) : Prop where
  length_eq : filled.length = params.length
  entry_iff : ∀ k i : Nat, filled[k]? = some (some i) ↔ slots[i]? = some k
  behind : ∀ k < cursor, k ∈ slots

theorem placed_nil : Placed params [] (params.map fun _ => none) 0 where
  length_eq := List.length_map _
  entry_iff k i := by
    rw [List.getElem?_map, List.getElem?_nil]
    cases params[k]? <;> exact ⟨nofun, nofun⟩
  behind := nofun

section
variable {slots : List Nat} {filled : List (Option Nat)} {cursor : Nat} (h : Placed params slots filled cursor)
include h

theorem Placed.mem_iff : k ∈ slots ↔ ∃ i, filled[k]? = some (some i) := by
  simp only [List.mem_iff_getElem?, h.entry_iff]

theorem Placed.free_iff (hk : k < params.length) : k ∉ slots ↔ filled[k]? = some none := by
  obtain ⟨entry, hentry⟩ : ∃ entry, filled[k]? = some entry := ⟨_, List.getElem?_eq_getElem (h.length_eq ▸ hk)⟩
  rw [h.mem_iff, hentry]
  cases entry <;> simp

theorem Placed.set {slot : Nat} (hslot : slot < params.length) (hfree : slot ∉ slots)
    (hbehind : ∀ k < cursor', k ∈ slots ++ [slot]) :
    Placed params (slots ++ [slot]) (filled.set slot (some slots.length)) cursor' where
  length_eq := by rw [List.length_set, h.length_eq]
  entry_iff k i := by
    have hentry := h.entry_iff k i
    rw [List.getElem?_set, List.getElem?_append, h.length_eq, if_pos hslot]
    by_cases hk : slot = k
    · subst hk
      by_cases hi : i < slots.length
      · have hne : slots[i]? ≠ some slot := fun hsome => hfree (List.mem_of_getElem? hsome)
        simp only [↓reduceIte, if_pos hi, Option.some.injEq]
        exact ⟨fun heq => absurd heq (by omega), fun heq => absurd heq hne⟩
      · simp only [↓reduceIte, if_neg hi, Option.some.injEq, List.getElem?_singleton]
        split <;> simp <;> omega
    · rw [if_neg hk, hentry]
      by_cases hi : i < slots.length
      · rw [if_pos hi]
      · rw [if_neg hi, List.getElem?_eq_none (Nat.not_lt.mp hi), List.getElem?_singleton]
        split
        · simpa using hk
        · rfl
  behind := hbehind

/-- From the cursor on, the next free slot is the least free slot of all. -/
theorem Placed.mem_of_lt_nextFree (hk : k < nextFree filled cursor) : k ∈ slots := by
  by_cases hcursor : k < cursor
  · exact h.behind k hcursor
  · obtain ⟨j, rfl⟩ := Nat.exists_eq_add_of_le (Nat.not_lt.mp hcursor)
    have hj : j < (filled.drop cursor).findIdx Option.isNone := Nat.lt_of_add_lt_add_left hk
    have htaken := List.not_of_lt_findIdx hj
    rw [h.mem_iff, ← List.getElem?_drop, List.getElem?_eq_getElem (Nat.lt_of_lt_of_le hj List.findIdx_le_length)]
    simpa [Option.isSome_iff_exists] using htaken

theorem Placed.nextFree_not_mem (hlt : nextFree filled cursor < params.length) : nextFree filled cursor ∉ slots := by
  have hfound : (filled.drop cursor).findIdx Option.isNone < (filled.drop cursor).length := by
    rw [List.length_drop, h.length_eq]
    unfold nextFree at hlt
    omega
  rw [h.free_iff hlt, nextFree, ← List.getElem?_drop, List.getElem?_eq_getElem hfound]
  simpa using List.findIdx_getElem (w := hfound)

/-- Some slot is free if there is one from the cursor on. -/
theorem Placed.slot_nextFree (hlt : nextFree filled cursor < params.length) :
    Slot params slots none (nextFree filled cursor) :=
  .positional hlt (h.nextFree_not_mem hlt) fun _ => h.mem_of_lt_nextFree

/-- One argument takes the slot that it should, and the cursor stays right. -/
theorem Placed.step {slot : Nat} (hok : slotFor callee params filled cursor label = .ok (slot, cursor')) :
    Slot params slots label slot ∧ Placed params (slots ++ [slot]) (filled.set slot (some slots.length)) cursor' := by
  unfold slotFor at hok
  split at hok
  case h_1 name =>
    split at hok
    case h_1 => exact nomatch hok
    case h_2 found hfound =>
      split at hok
      case h_1 => exact nomatch hok
      case h_2 hfree =>
        cases hok
        have hname : FirstNamed params name slot := findIdx?_boundName.mp hfound
        have hnot : slot ∉ slots := fun hmem =>
          have ⟨i, hi⟩ := h.mem_iff.mp hmem
          hfree i hi
        have hslot : Slot params slots (some name) slot := .labelled hname hnot
        exact ⟨hslot, h.set hslot.lt_length hnot fun k hk => List.mem_append_left _ (h.behind k hk)⟩
  case h_2 =>
    dsimp only at hok
    split at hok
    case isFalse => exact nomatch hok
    case isTrue hlt =>
      cases hok
      have hslot := h.slot_nextFree hlt
      refine ⟨hslot, h.set hlt hslot.free fun k hk => ?_⟩
      rcases Nat.lt_succ_iff_lt_or_eq.mp hk with hk | rfl
      · exact List.mem_append_left _ (h.mem_of_lt_nextFree hk)
      · exact List.mem_append_right _ List.mem_cons_self

/-- An argument that has a slot is given one. -/
theorem Placed.progress (callee : String) {slot : Nat} (hslot : Slot params slots label slot) :
    ∃ cursor', slotFor callee params filled cursor label = .ok (slot, cursor') := by
  cases hslot with
  | labelled hname hfree =>
    refine ⟨cursor, ?_⟩
    unfold slotFor
    have hentry := (h.free_iff (Slot.labelled hname hfree).lt_length).mp hfree
    simp only [findIdx?_boundName.mpr hname, hentry]
  | positional hlt hfree hleast =>
    have hle : nextFree filled cursor ≤ slot := Nat.not_lt.mp fun hgt => hfree (h.mem_of_lt_nextFree hgt)
    have hlt' : nextFree filled cursor < params.length := Nat.lt_of_le_of_lt hle hlt
    have heq : nextFree filled cursor = slot := (h.slot_nextFree hlt').unique (.positional hlt hfree hleast)
    refine ⟨slot + 1, ?_⟩
    unfold slotFor
    simp only [heq, if_pos hlt]

end

/-- The arguments take the slots that they should, one after the other. -/
theorem Placed.run {filled' : List (Option Nat)} (h : Placed params slots filled cursor)
    (hok : place callee params filled cursor slots.length labels = .ok filled') :
    ∃ rest cursor', Takes params slots labels rest ∧ Placed params (slots ++ rest) filled' cursor' := by
  induction labels generalizing slots filled cursor with
  | nil =>
    cases hok
    exact ⟨[], cursor, .nil, by rwa [List.append_nil]⟩
  | cons label labels ih =>
    obtain ⟨⟨slot, cursor₁⟩, hslotFor, hrest⟩ := except_bind_eq_ok.mp hok
    obtain ⟨hslot, hplaced⟩ := h.step hslotFor
    obtain ⟨rest, cursor', htakes, hend⟩ := ih hplaced (by rwa [List.length_append])
    exact ⟨slot :: rest, cursor', .cons hslot htakes, by rwa [List.append_cons]⟩

theorem Placed.completes {rest : List Nat}
    (h : Placed params slots filled cursor) (callee : String) (htakes : Takes params slots labels rest) :
    ∃ filled', place callee params filled cursor slots.length labels = .ok filled' := by
  induction htakes generalizing filled cursor with
  | nil => exact ⟨filled, rfl⟩
  | @cons slots _ _ _ slot hslot _ ih =>
    obtain ⟨cursor', hslotFor⟩ := h.progress callee hslot
    obtain ⟨filled', hplace⟩ := ih (h.step hslotFor).2
    rw [List.length_append] at hplace
    exact ⟨filled', except_bind_eq_ok.mpr ⟨_, hslotFor, hplace⟩⟩

/-! ### Matching -/

theorem repeatedLabel?_eq_none_iff {seen : List String} :
    repeatedLabel? seen labels = none ↔ (labels.filterMap id).Nodup ∧ ∀ l ∈ labels.filterMap id, l ∉ seen := by
  induction labels generalizing seen with
  | nil => simp [repeatedLabel?]
  | cons label labels ih =>
    cases label with
    | none => exact ih
    | some l =>
      rw [repeatedLabel?]
      by_cases hseen : l ∈ seen
      · simp [hseen]
      · rw [if_neg (by simpa using hseen), ih]
        simp only [List.filterMap_cons, id_eq, List.nodup_cons, List.mem_cons, not_or]
        grind

theorem mapM_eq_ok_iff {ε α β : Type} {f : α → Except ε β} {l : List α} {r : List β} :
    l.mapM f = .ok r ↔ r.length = l.length ∧ ∀ (k : Nat) a b, l[k]? = some a → r[k]? = some b → f a = .ok b := by
  induction l generalizing r with
  | nil =>
    show Except.ok [] = Except.ok r ↔ _
    simp [eq_comm]
  | cons a l ih =>
    rw [List.mapM_cons, except_bind_eq_ok]
    constructor
    · rintro ⟨b, hb, hrest⟩
      obtain ⟨bs, hbs, hr⟩ := except_bind_eq_ok.mp hrest
      cases hr
      obtain ⟨hlength, hentry⟩ := ih.mp hbs
      refine ⟨congrArg (· + 1) hlength, fun k a' b' ha' hb' => ?_⟩
      cases k with
      | zero =>
        cases ha'
        cases hb'
        exact hb
      | succ k => exact hentry k a' b' ha' hb'
    · rintro ⟨hlength, hentry⟩
      cases r with
      | nil => exact nomatch hlength
      | cons b bs =>
        have hbs : l.mapM f = .ok bs := ih.mpr ⟨Nat.succ.inj hlength, fun k => hentry (k + 1)⟩
        exact ⟨b, hentry 0 a b rfl rfl, except_bind_eq_ok.mpr ⟨bs, hbs, rfl⟩⟩

theorem fillingOf_eq_ok_iff {param : Expr} {entry : Option Nat} {filling : Filling} :
    fillingOf callee param entry = .ok filling ↔
      (∃ i, entry = some i ∧ filling = .argument i) ∨ entry = none ∧ filling = .default ∧ param.initial?.isSome := by
  cases entry with
  | some i =>
    show Except.ok (Filling.argument i) = .ok filling ↔ _
    simp only [Except.ok.injEq, Option.some.injEq, exists_eq_left', reduceCtorEq, false_and, or_false]
    exact eq_comm
  | none =>
    rw [fillingOf]
    split
    case isTrue hinitial => simp [hinitial, eq_comm]
    case isFalse hinitial => simp [hinitial]

/-- Each argument fills its slot, and the slots that no argument has taken have defaults. -/
structure Fills (params : List Expr) (slots : List Nat) (r : List Filling) : Prop where
  length_eq : r.length = params.length
  argument : ∀ i k : Nat, slots[i]? = some k → r[k]? = some (.argument i)
  default : ∀ (k : Nat) param, params[k]? = some param → k ∉ slots → r[k]? = some .default ∧ param.initial?.isSome

theorem Placed.mapM_fillingOf (h : Placed params slots filled cursor) :
    (params.zip filled).mapM (fun (param, slot) => fillingOf callee param slot) = .ok r ↔ Fills params slots r := by
  rw [mapM_eq_ok_iff, List.length_zip, h.length_eq, Nat.min_self]
  simp only [List.getElem?_zip_eq_some, fillingOf_eq_ok_iff]
  constructor
  · rintro ⟨hlength, hentry⟩
    have hsome {k : Nat} (hk : k < params.length) : ∃ filling, r[k]? = some filling :=
      ⟨_, List.getElem?_eq_getElem (hlength ▸ hk)⟩
    refine ⟨hlength, fun i k hi => ?_, fun k param hparam hk => ?_⟩
    · have hfilled := (h.entry_iff k i).mpr hi
      have hk : k < params.length := h.length_eq ▸ (List.getElem?_eq_some_iff.mp hfilled).1
      obtain ⟨filling, hfilling⟩ := hsome hk
      rcases hentry k (params[k], some i) filling ⟨List.getElem?_eq_getElem hk, hfilled⟩ hfilling with ⟨j, hj, rfl⟩ | ⟨hnone, -⟩
      · rw [hfilling, Option.some.inj hj]
      · exact nomatch hnone
    · have hlt : k < params.length := (List.getElem?_eq_some_iff.mp hparam).1
      obtain ⟨filling, hfilling⟩ := hsome hlt
      rcases hentry k (param, none) filling ⟨hparam, (h.free_iff hlt).mp hk⟩ hfilling with ⟨j, hj, -⟩ | ⟨-, rfl, hinitial⟩
      · exact nomatch hj
      · exact ⟨hfilling, hinitial⟩
  · rintro ⟨hlength, hargument, hdefault⟩
    refine ⟨hlength, fun k pair filling hpair hfilling => ?_⟩
    obtain ⟨param, entry⟩ := pair
    obtain ⟨hparam, hfilled⟩ := hpair
    cases entry with
    | some i =>
      have hr := hargument i k ((h.entry_iff k i).mp hfilled)
      exact .inl ⟨i, rfl, Option.some.inj (hfilling.symm.trans hr)⟩
    | none =>
      have hfree : k ∉ slots := (h.free_iff (List.getElem?_eq_some_iff.mp hparam).1).mpr hfilled
      obtain ⟨hr, hinitial⟩ := hdefault k param hparam hfree
      exact .inr ⟨rfl, Option.some.inj (hfilling.symm.trans hr), hinitial⟩

/-- Matching succeeds if no label is repeated, each argument has a slot and each slot left free has a default. -/
theorem order_eq_ok_iff :
    order callee params count labels = .ok r ↔
      (labels.filterMap id).Nodup ∧ ∃ slots, Takes params [] (labelsOf count labels) slots ∧ Fills params slots r := by
  have hlabels : repeatedLabel? [] labels = none ↔ (labels.filterMap id).Nodup := by simp [repeatedLabel?_eq_none_iff]
  rw [order, ← hlabels]
  cases repeatedLabel? [] labels with
  | some name => exact ⟨nofun, nofun⟩
  | none =>
    rw [and_iff_right rfl]
    constructor
    · intro hok
      obtain ⟨filled, hplace, hfill⟩ := except_bind_eq_ok.mp hok
      obtain ⟨slots, cursor, htakes, hplaced⟩ := placed_nil.run hplace
      exact ⟨slots, htakes, hplaced.mapM_fillingOf.mp hfill⟩
    · rintro ⟨slots, htakes, hfills⟩
      obtain ⟨filled, hplace⟩ := placed_nil.completes callee htakes
      obtain ⟨slots', cursor, htakes', hplaced⟩ := placed_nil.run hplace
      obtain rfl := htakes.unique htakes'
      exact except_bind_eq_ok.mpr ⟨filled, hplace, hplaced.mapM_fillingOf.mpr hfills⟩

/-- A positional argument has a slot if any is free. -/
theorem exists_slot_none (h : ∃ slot < params.length, slot ∉ taken) : ∃ slot, Slot params taken none slot := by
  classical
  obtain ⟨hlt, hfree⟩ := Nat.find_spec h
  refine ⟨Nat.find h, .positional hlt hfree fun k hk => ?_⟩
  by_contra hnot
  exact Nat.find_min h hk ⟨Nat.lt_trans hk hlt, hnot⟩

/-- Every argument has a slot if none can be the first without one. -/
theorem exists_takes
    (h : ∀ before label after taken, labels = before ++ label :: after → Takes params [] before taken →
      ∃ slot, Slot params taken label slot) : ∃ slots, Takes params [] labels slots := by
  -- What is left is taken after what has been taken before.
  have hrest (after : List (Option String)) : ∀ before taken, labels = before ++ after → Takes params [] before taken →
      ∃ slots, Takes params taken after slots := by
    induction after with
    | nil => exact fun _ _ _ _ => ⟨[], .nil⟩
    | cons label after ih =>
      intro before taken heq htaken
      obtain ⟨slot, hslot⟩ := h before label after taken heq htaken
      have hnext : Takes params [] (before ++ [label]) (taken ++ [slot]) :=
        takes_append.mpr ⟨taken, [slot], rfl, htaken, .cons hslot .nil⟩
      obtain ⟨slots, hslots⟩ := ih (before ++ [label]) (taken ++ [slot]) (by simpa using heq) hnext
      exact ⟨slot :: slots, .cons hslot hslots⟩
  exact hrest labels [] [] rfl .nil

/-- Where each slot left free has a default, the parameters are filled. -/
theorem Takes.exists_fills (h : Takes params [] labels slots)
    (hdefault : ∀ (k : Nat) param, params[k]? = some param → k ∉ slots → param.initial?.isSome) :
    ∃ r, Fills params slots r := by
  obtain ⟨filled, hplace⟩ := placed_nil.completes "" h
  obtain ⟨slots', cursor, h', hplaced⟩ := placed_nil.run hplace
  obtain rfl := h.unique h'
  refine ⟨filled.map fun entry => entry.elim .default .argument, ?_, fun i k hi => ?_, fun k param hparam hk => ?_⟩
  · rw [List.length_map, hplaced.length_eq]
  · rw [List.getElem?_map, (hplaced.entry_iff k i).mpr hi]
    rfl
  · rw [List.getElem?_map, (hplaced.free_iff (List.getElem?_eq_some_iff.mp hparam).1).mp hk]
    exact ⟨rfl, hdefault k param hparam hk⟩

theorem Takes.slot_at (h : Takes params [] labels slots) {i : Nat} (hi : labels[i]? = some label) :
    ∃ slot, slots[i]? = some slot ∧ Slot params (slots.take i) label slot := by
  obtain ⟨hlt, rfl⟩ := List.getElem?_eq_some_iff.mp hi
  rw [← List.take_append_drop i labels, List.drop_eq_getElem_cons hlt] at h
  obtain ⟨first, slot, -, hslot, hget, rfl⟩ := h.slot
  rw [List.length_take_of_le (Nat.le_of_lt hlt)] at hget hslot
  exact ⟨slot, hget, hslot⟩

/-- The slots as a map on the arguments. -/
theorem Takes.exists_map (h : Takes params [] (labelsOf count labels) slots) :
    ∃ s : Fin count → Fin params.length, (∀ i : Fin count, slots[i.val]? = some (s i).val) ∧
      (∀ i : Fin count, Slot params (slots.take i) (labels[i.val]?).join (s i)) ∧
      (∀ (i : Fin count) k, k.val ∈ slots.take i ↔ ∃ j < i, s j = k) ∧ ∀ k, k.val ∈ slots ↔ ∃ i, s i = k := by
  have hlength : slots.length = count := by rw [h.length_eq, labelsOf, List.length_map, List.length_range]
  have hslot (i : Fin count) : ∃ k : Fin params.length, slots[i.val]? = some k.val ∧
      Slot params (slots.take i) (labels[i.val]?).join k := by
    have hlabel : (labelsOf count labels)[i.val]? = some (labels[i.val]?).join := by simp [labelsOf]
    obtain ⟨slot, hget, hslot⟩ := h.slot_at hlabel
    exact ⟨⟨slot, hslot.lt_length⟩, hget, hslot⟩
  choose s hget hslot using hslot
  have hmem (k : Fin params.length) (n : Nat) : k.val ∈ slots.take n ↔ ∃ j : Fin count, j.val < n ∧ s j = k := by
    rw [List.mem_iff_getElem?]
    constructor
    · rintro ⟨j, hj⟩
      have hlt : j < n := by
        have hbound := (List.getElem?_eq_some_iff.mp hj).1
        rw [List.length_take] at hbound
        omega
      rw [List.getElem?_take_of_lt hlt] at hj
      have hcount : j < count := hlength ▸ (List.getElem?_eq_some_iff.mp hj).1
      exact ⟨⟨j, hcount⟩, hlt, Fin.ext (Option.some.inj ((hget ⟨j, hcount⟩).symm.trans hj))⟩
    · rintro ⟨j, hlt, rfl⟩
      exact ⟨j.val, by rw [List.getElem?_take_of_lt hlt, hget]⟩
  refine ⟨s, hget, hslot, fun i k => hmem k i, fun k => ?_⟩
  have hall := hmem k slots.length
  rw [List.take_length, hlength] at hall
  simpa using hall

/-- Matching, for any parameters, arguments and labels. It succeeds if no label is repeated, each label is the name of a
    parameter, no labelled argument meets a taken slot, no other finds all slots taken, and each slot left free has a
    default. Then there is one filling for each parameter: the arguments go to different slots, a labelled one to the
    first parameter of its name and any other to the least slot that no argument before it has taken; each fills its slot,
    and all other slots are filled by their defaults. -/
theorem order_matches (callee : String) (params : List Expr) (count : Nat) (labels : List (Option String)) :
    ((∃ r, order callee params count labels = .ok r) ↔
      (labels.filterMap id).Nodup ∧
      (∀ name, some name ∈ labelsOf count labels → ∃ param ∈ params, param.boundName? = some name) ∧
      (∀ before name after taken slot, labelsOf count labels = before ++ some name :: after →
        Takes params [] before taken → FirstNamed params name slot → slot ∉ taken) ∧
      (∀ before after taken, labelsOf count labels = before ++ none :: after → Takes params [] before taken →
        ∃ slot < params.length, slot ∉ taken) ∧
      ∀ taken, Takes params [] (labelsOf count labels) taken →
        ∀ k : Fin params.length, k.val ∉ taken → (params.get k).initial?.isSome) ∧
    ∀ r, order callee params count labels = .ok r →
      r.length = params.length ∧
      ∃ s : Fin count → Fin params.length, Function.Injective s ∧
        (∀ i name, (labels[i.val]?).join = some name → FirstNamed params name (s i)) ∧
        (∀ i, (labels[i.val]?).join = none → (∀ j < i, s j ≠ s i) ∧ ∀ k < s i, ∃ j < i, s j = k) ∧
        (∀ i, r[(s i).val]? = some (.argument i)) ∧
        ∀ k, (∀ i, s i ≠ k) → r[k.val]? = some .default ∧ (params.get k).initial?.isSome := by
  refine ⟨⟨?_, ?_⟩, fun r hr => ?_⟩
  · rintro ⟨r, hr⟩
    obtain ⟨hnodup, slots, htakes, hfills⟩ := order_eq_ok_iff.mp hr
    refine ⟨hnodup, fun name hname => ?_, fun before name after taken slot heq htaken hslot => ?_,
      fun before after taken heq htaken => ?_, fun taken htaken k hk => ?_⟩
    · obtain ⟨before, after, heq⟩ := List.append_of_mem hname
      obtain ⟨_, slot, -, hslot, -⟩ := (heq ▸ htakes).slot
      cases hslot with
      | labelled hnamed _ => exact exists_firstNamed.mp ⟨slot, hnamed⟩
    · obtain ⟨taken', slot', htaken', hslot', -⟩ := (heq ▸ htakes).slot
      obtain rfl := htaken.unique htaken'
      cases hslot' with
      | labelled hnamed hfree => exact hslot.unique hnamed ▸ hfree
    · obtain ⟨taken', slot, htaken', hslot, -⟩ := (heq ▸ htakes).slot
      obtain rfl := htaken.unique htaken'
      exact ⟨slot, hslot.lt_length, hslot.free⟩
    · obtain rfl := htaken.unique htakes
      exact (hfills.default k (params.get k) (List.getElem?_eq_getElem k.isLt) hk).2
  · rintro ⟨hnodup, hnames, hfree, hroom, hdefault⟩
    obtain ⟨slots, htakes⟩ : ∃ slots, Takes params [] (labelsOf count labels) slots := by
      refine exists_takes fun before label after taken heq htaken => ?_
      cases label with
      | none => exact exists_slot_none (hroom before after taken heq htaken)
      | some name =>
        obtain ⟨slot, hslot⟩ := exists_firstNamed.mpr (hnames name (by simp [heq]))
        exact ⟨slot, .labelled hslot (hfree before name after taken slot heq htaken hslot)⟩
    have hfills : ∃ r, Fills params slots r := by
      refine htakes.exists_fills fun k param hparam hk => ?_
      obtain ⟨hlt, rfl⟩ := List.getElem?_eq_some_iff.mp hparam
      exact hdefault slots htakes ⟨k, hlt⟩ hk
    obtain ⟨r, hfills⟩ := hfills
    exact ⟨r, order_eq_ok_iff.mpr ⟨hnodup, slots, htakes, hfills⟩⟩
  · obtain ⟨-, slots, htakes, hfills⟩ := order_eq_ok_iff.mp hr
    obtain ⟨s, hget, hslot, hbefore, himage⟩ := htakes.exists_map
    have hfresh (i j : Fin count) (hlt : j < i) : s j ≠ s i := fun heq =>
      (hslot i).free ((hbefore i (s i)).mpr ⟨j, hlt, heq⟩)
    refine ⟨hfills.length_eq, s, fun i j heq => ?_, fun i name hname => ?_, fun i hnone => ?_,
      fun i => hfills.argument i _ (hget i), fun k hk => ?_⟩
    · rcases Nat.lt_trichotomy i j with hlt | hij | hgt
      · exact absurd heq (hfresh j i hlt)
      · exact Fin.ext hij
      · exact absurd heq.symm (hfresh i j hgt)
    · have hi := hslot i
      rw [hname] at hi
      cases hi with
      | labelled hnamed _ => exact hnamed
    · have hi := hslot i
      rw [hnone] at hi
      cases hi with
      | positional _ _ hleast => exact ⟨hfresh i, fun k hk => (hbefore i k).mp (hleast k hk)⟩
    · have hfree : k.val ∉ slots := fun hmem =>
        have ⟨i, hi⟩ := (himage k).mp hmem
        hk i hi
      exact hfills.default k (params.get k) (List.getElem?_eq_getElem k.isLt) hfree

/-- In `f(b: 1, 2, 3)` the second argument passes over `b`, and `d` keeps its default. -/
theorem order_matches_passing :
    let params := [.parameter "a" [], .parameter "b" [], .parameter "c" [], Expr.binding "d" [] (.int32 4)]
    order "f" params 3 [some "b", none, none] = .ok [.argument 1, .argument 0, .argument 2, .default] ∧
      ∃ s : Fin 3 → Fin 4, Function.Injective s ∧ s 0 = 1 ∧ s 1 = 0 ∧ s 2 = 2 := by
  intro params
  have hok : order "f" params 3 [some "b", none, none] = .ok [.argument 1, .argument 0, .argument 2, .default] := rfl
  obtain ⟨-, s, hinjective, -, -, hargument, -⟩ := (order_matches "f" params 3 [some "b", none, none]).2 _ hok
  -- Each argument stands at one place only.
  have hplace : ∀ i k : Fin 4, [Filling.argument 1, .argument 0, .argument 2, .default][k.val]? = some (.argument i.val) →
      i = 3 ∨ k = if i = 0 then 1 else if i = 1 then 0 else 2 := by decide
  exact ⟨hok, s, hinjective, (hplace 0 _ (hargument 0)).resolve_left (by decide),
    (hplace 1 _ (hargument 1)).resolve_left (by decide), (hplace 2 _ (hargument 2)).resolve_left (by decide)⟩

end FlatCode.Arguments
