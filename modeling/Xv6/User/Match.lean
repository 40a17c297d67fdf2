import Mathlib.Computability.Language

/-!
# The regular expressions of `grep`

`match` of `user/grep.c` looks for a pattern in a text by three functions that call each other, with backtracking. A
pattern is a sequence of items, each a character or a star of a character, and stands for a language. The text matches if
and only if one of its parts is in the language. Strings are lists of characters; the NUL is the end of the list.
-/

namespace Xv6.User

open Computability

/-! ### The matcher -/

/-- The characters with a meaning: `^`, `$`, `.` and `*`. -/
def caret : UInt8 := 94

def dollar : UInt8 := 36

def dot : UInt8 := 46

def asterisk : UInt8 := 42

mutual

def matchhere (re text : List UInt8) : Bool :=
  match re with
  | [] => true
  | c :: re =>
    if re.head? = some asterisk then matchstar c re.tail text
    else if c = dollar ∧ re = [] then decide (text = [])
    else
      match text with
      | [] => false
      | t :: text => if c = dot ∨ c = t then matchhere re text else false
termination_by (2 * re.length, text.length)
decreasing_by
  · exact Prod.Lex.left _ _ (by simp only [List.length_tail, List.length_cons]; omega)
  · exact Prod.Lex.left _ _ (by simp only [List.length_cons]; omega)

def matchstar (c : UInt8) (re text : List UInt8) : Bool :=
  if matchhere re text then true
  else
    match text with
    | [] => false
    | t :: text => if t = c ∨ c = dot then matchstar c re text else false
termination_by (2 * re.length + 1, text.length)
decreasing_by
  · exact Prod.Lex.left _ _ (by omega)
  · exact Prod.Lex.right _ (by simp)

end

def matchLoop (re : List UInt8) : List UInt8 → Bool
  | [] => matchhere re []
  | t :: text => if matchhere re (t :: text) then true else matchLoop re text

/-- **`match`**, which is a word of Lean. -/
def matchText (re text : List UInt8) : Bool :=
  if re.head? = some caret then matchhere re.tail text else matchLoop re text

/-! ### Patterns and their languages -/

structure Item where
  char : UInt8
  star : Bool
  deriving DecidableEq

def items : List UInt8 → List Item
  | [] => []
  | [c] => [⟨c, false⟩]
  | c :: d :: re => if d = asterisk then ⟨c, true⟩ :: items re else ⟨c, false⟩ :: items (d :: re)

def Item.Accepts (x : Item) (t : UInt8) : Prop := x.char = dot ∨ x.char = t

def Item.one (x : Item) : Language UInt8 := {w | ∃ t, x.Accepts t ∧ w = [t]}

def Item.language (x : Item) : Language UInt8 := if x.star then x.one∗ else x.one

def Item.last : Item := ⟨dollar, false⟩

/-- The items that stand for characters: all but a `$` in the last place. -/
def body : List Item → List Item
  | [] => []
  | x :: xs => if xs = [] ∧ x = Item.last then [] else x :: body xs

/-- **The language of a pattern.** -/
def language (xs : List Item) : Language UInt8 := ((body xs).map Item.language).prod

def AtEnd (xs : List Item) : Prop := xs.getLast? = some Item.last

def Begins (xs : List Item) (text : List UInt8) : Prop :=
  ∃ w post, text = w ++ post ∧ w ∈ language xs ∧ (AtEnd xs → post = [])

variable {c t : UInt8} {re text w : List UInt8} {x : Item} {xs : List Item}

theorem items_star (h : re.head? = some asterisk) : items (c :: re) = ⟨c, true⟩ :: items re.tail := by
  cases re with
  | nil => cases h
  | cons d re => rw [items, if_pos (Option.some.inj h)]; rfl

theorem items_plain (h : re.head? ≠ some asterisk) : items (c :: re) = ⟨c, false⟩ :: items re := by
  cases re with
  | nil => rfl
  | cons d re => rw [items, if_neg fun hd => h (congrArg some hd)]

theorem items_eq_nil : items re = [] ↔ re = [] := by
  refine ⟨fun h => ?_, fun h => h ▸ rfl⟩
  cases re with
  | nil => rfl
  | cons c re =>
    by_cases hs : re.head? = some asterisk
    · rw [items_star hs] at h
      cases h
    · rw [items_plain hs] at h
      cases h

/-! ### Words of a pattern -/

theorem mem_language_of_star (hx : x.star = true) : w ∈ x.language ↔ ∀ t ∈ w, x.Accepts t := by
  rw [Item.language, if_pos hx, Language.mem_kstar]
  constructor
  · rintro ⟨ws, rfl, hws⟩ t ht
    obtain ⟨v, hv, htv⟩ := List.mem_flatten.mp ht
    obtain ⟨u, hu, rfl⟩ := hws v hv
    rwa [List.mem_singleton.mp htv]
  intro hw
  refine ⟨w.map fun t => [t], ?_, fun v hv => ?_⟩
  · induction w with
    | nil => rfl
    | cons t w ih =>
      rw [List.map_cons, List.flatten_cons, ← ih fun u hu => hw u (List.mem_cons_of_mem t hu)]
      rfl
  · obtain ⟨t, ht, rfl⟩ := List.mem_map.mp hv
    exact ⟨t, hw t ht, rfl⟩

theorem begins_last : Begins [Item.last] text ↔ text = [] := by
  have hbody : language [Item.last] = 1 := by
    rw [language, body, if_pos ⟨rfl, rfl⟩]
    rfl
  constructor
  · rintro ⟨w, post, rfl, hw, hpost⟩
    rw [hbody, Language.mem_one] at hw
    rw [hw, hpost rfl]
    rfl
  · rintro rfl
    exact ⟨[], [], rfl, by rw [hbody]; exact rfl, fun _ => rfl⟩

theorem atEnd_cons (h : ¬(xs = [] ∧ x = Item.last)) : AtEnd (x :: xs) ↔ AtEnd xs := by
  cases xs with
  | nil =>
    refine iff_of_false (fun hx => h ⟨rfl, Option.some.inj hx⟩) fun hx => ?_
    cases hx
  | cons y ys => rw [AtEnd, AtEnd, List.getLast?_cons_cons]

/-- **The first item**: a word of it, and then a word of the others. -/
theorem begins_cons (h : ¬(xs = [] ∧ x = Item.last)) : Begins (x :: xs) text ↔ ∃ u rest, text = u ++ rest ∧ u ∈ x.language ∧ Begins xs rest := by
  have hlang : language (x :: xs) = x.language * language xs := by
    rw [language, body, if_neg h, List.map_cons, List.prod_cons]
    rfl
  simp only [Begins, atEnd_cons h, hlang]
  constructor
  · rintro ⟨w, post, rfl, hw, hpost⟩
    obtain ⟨u, hu, v, hv, rfl⟩ := Language.mem_mul.mp hw
    exact ⟨u, v ++ post, List.append_assoc .., hu, v, post, rfl, hv, hpost⟩
  · rintro ⟨u, rest, rfl, hu, v, post, rfl, hv, hpost⟩
    exact ⟨u ++ v, post, (List.append_assoc ..).symm, Language.mem_mul.mpr ⟨u, hu, v, hv, rfl⟩, hpost⟩

theorem begins_nil : Begins [] text := ⟨[], text, rfl, rfl, fun h => by cases h⟩

theorem begins_plain (h : ¬(xs = [] ∧ c = dollar)) :
    Begins (⟨c, false⟩ :: xs) text ↔ ∃ t rest, text = t :: rest ∧ (c = dot ∨ c = t) ∧ Begins xs rest := by
  rw [begins_cons fun hx => h ⟨hx.1, congrArg Item.char hx.2⟩]
  constructor
  · rintro ⟨u, rest, rfl, ⟨t, ht, rfl⟩, hrest⟩
    exact ⟨t, rest, rfl, ht, hrest⟩
  · rintro ⟨t, rest, rfl, ht, hrest⟩
    exact ⟨[t], rest, rfl, ⟨t, ht, rfl⟩, hrest⟩

theorem begins_star :
    Begins (⟨c, true⟩ :: xs) text ↔ ∃ u rest, text = u ++ rest ∧ (∀ t ∈ u, c = dot ∨ c = t) ∧ Begins xs rest := by
  have hne : ¬(xs = [] ∧ (⟨c, true⟩ : Item) = Item.last) := fun hx => Bool.false_ne_true (congrArg Item.star hx.2).symm
  rw [begins_cons hne]
  simp only [mem_language_of_star (x := ⟨c, true⟩) rfl, Item.Accepts]

/-! ### The matcher is right -/

theorem matchstar_iff :
    matchstar c re text = true ↔ ∃ u rest, text = u ++ rest ∧ (∀ t ∈ u, c = dot ∨ c = t) ∧ matchhere re rest = true := by
  induction text with
  | nil =>
    rw [matchstar]
    constructor
    · intro h
      split at h
      · next hre => exact ⟨[], [], rfl, by simp, hre⟩
      · cases h
    · rintro ⟨u, rest, heq, -, hre⟩
      obtain ⟨-, rfl⟩ := List.append_eq_nil_iff.mp heq.symm
      rw [if_pos hre]
  | cons t text ih =>
    rw [matchstar]
    constructor
    · intro h
      split at h
      · next hre => exact ⟨[], t :: text, rfl, by simp, hre⟩
      split at h
      · next hc =>
        obtain ⟨u, rest, rfl, hu, hrest⟩ := ih.mp h
        refine ⟨t :: u, rest, rfl, fun t' ht' => ?_, hrest⟩
        rcases List.mem_cons.mp ht' with rfl | ht'
        · exact hc.symm.imp_right Eq.symm
        · exact hu t' ht'
      · cases h
    · rintro ⟨u, rest, heq, hu, hrest⟩
      split
      · rfl
      rename_i hre
      cases u with
      | nil =>
        rw [List.nil_append] at heq
        exact absurd (heq ▸ hrest) hre
      | cons t' u =>
        rw [List.cons_append, List.cons.injEq] at heq
        obtain ⟨rfl, rfl⟩ := heq
        rw [if_pos ((hu t List.mem_cons_self).symm.imp_left Eq.symm)]
        exact ih.mpr ⟨u, rest, rfl, fun t' ht' => hu t' (List.mem_cons_of_mem _ ht'), hrest⟩

theorem matchhere_nil : matchhere [] text = true := by rw [matchhere]

theorem matchhere_star (h : re.head? = some asterisk) : matchhere (c :: re) text = matchstar c re.tail text := by
  rw [matchhere.eq_def]
  exact if_pos h

theorem matchhere_last : matchhere [dollar] text = decide (text = []) := by
  rw [matchhere.eq_def]
  exact (if_neg (by decide)).trans (if_pos ⟨rfl, rfl⟩)

theorem matchhere_plain (hs : re.head? ≠ some asterisk) (hd : ¬(c = dollar ∧ re = [])) :
    matchhere (c :: re) text = true ↔ ∃ t rest, text = t :: rest ∧ (c = dot ∨ c = t) ∧ matchhere re rest = true := by
  rw [matchhere.eq_def]
  dsimp only
  rw [if_neg hs, if_neg hd]
  cases text with
  | nil =>
    refine iff_of_false (by simp) ?_
    rintro ⟨t, rest, heq, -⟩
    cases heq
  | cons t text =>
    dsimp only
    constructor
    · intro h
      split at h
      · next hc => exact ⟨t, text, rfl, hc, h⟩
      · cases h
    · rintro ⟨t', rest, heq, hc, hrest⟩
      obtain ⟨rfl, rfl⟩ := List.cons.inj heq
      rwa [if_pos hc]

/-- **`matchhere` finds a word of the pattern at the beginning of the text.** By induction on the pattern; after a star it is two
characters shorter. -/
theorem matchhere_iff {n : ℕ} (hn : re.length ≤ n) : matchhere re text = true ↔ Begins (items re) text := by
  induction n generalizing re text with
  | zero =>
    obtain rfl := List.length_eq_zero_iff.mp (Nat.le_zero.mp hn)
    exact iff_of_true matchhere_nil begins_nil
  | succ n ih =>
    cases re with
    | nil => exact iff_of_true matchhere_nil begins_nil
    | cons c re =>
      have hlen : re.length ≤ n := Nat.le_of_succ_le_succ hn
      by_cases hs : re.head? = some asterisk
      · have htail : re.tail.length ≤ n := by
          rw [List.length_tail]
          omega
        rw [matchhere_star hs, items_star hs, begins_star, matchstar_iff]
        simp only [ih htail]
      · rw [items_plain hs]
        by_cases hd : c = dollar ∧ re = []
        · obtain ⟨rfl, rfl⟩ := hd
          rw [matchhere_last, decide_eq_true_iff]
          exact begins_last.symm
        · rw [matchhere_plain hs hd, begins_plain fun hx => hd ⟨hx.2, items_eq_nil.mp hx.1⟩]
          simp only [ih hlen]

theorem matchLoop_iff : matchLoop re text = true ↔ ∃ pre rest, text = pre ++ rest ∧ matchhere re rest = true := by
  induction text with
  | nil =>
    rw [matchLoop]
    constructor
    · intro h
      exact ⟨[], [], rfl, h⟩
    · rintro ⟨pre, rest, heq, h⟩
      obtain ⟨-, rfl⟩ := List.append_eq_nil_iff.mp heq.symm
      exact h
  | cons t text ih =>
    rw [matchLoop]
    constructor
    · intro h
      split at h
      · next hre => exact ⟨[], t :: text, rfl, hre⟩
      · obtain ⟨pre, rest, rfl, hrest⟩ := ih.mp h
        exact ⟨t :: pre, rest, rfl, hrest⟩
    rintro ⟨pre, rest, heq, hrest⟩
    split
    · rfl
    rename_i hre
    cases pre with
    | nil =>
      rw [List.nil_append] at heq
      exact absurd (heq ▸ hrest) hre
    | cons t' pre =>
      rw [List.cons_append, List.cons.injEq] at heq
      obtain ⟨rfl, rfl⟩ := heq
      exact ih.mpr ⟨pre, rest, rfl, hrest⟩

/-- **The matcher is sound and complete.** The text has a part in the language of the pattern, at its beginning if the pattern
begins with `^`, and at its end if the pattern ends with `$`. -/
theorem match_iff (re text : List UInt8) : matchText re text = true ↔ ∃ pre w post, text = pre ++ w ++ post ∧ (re.head? = some caret → pre = []) ∧
        w ∈ language (items (if re.head? = some caret then re.tail else re)) ∧
        (AtEnd (items (if re.head? = some caret then re.tail else re)) → post = []) := by
  rw [matchText]
  by_cases hc : re.head? = some caret
  · simp only [if_pos hc, matchhere_iff le_rfl]
    constructor
    · rintro ⟨w, post, rfl, hw, hpost⟩
      exact ⟨[], w, post, rfl, fun _ => rfl, hw, hpost⟩
    · rintro ⟨pre, w, post, rfl, hpre, hw, hpost⟩
      rw [hpre hc]
      exact ⟨w, post, rfl, hw, hpost⟩
  · simp only [if_neg hc, matchLoop_iff, matchhere_iff le_rfl]
    constructor
    · rintro ⟨pre, rest, rfl, w, post, rfl, hw, hpost⟩
      exact ⟨pre, w, post, (List.append_assoc ..).symm, fun h => absurd h hc, hw, hpost⟩
    · rintro ⟨pre, w, post, rfl, -, hw, hpost⟩
      exact ⟨pre, w ++ post, List.append_assoc .., w, post, rfl, hw, hpost⟩

end Xv6.User
