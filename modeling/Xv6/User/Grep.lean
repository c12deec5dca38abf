import Mathlib

/-!
# grep (`grep.c`)

A string is the list of its bytes before the NUL.  `matchhere` is recursive in the pattern and
`matchstar` in the text, with the rest of the pattern as an argument.  A pattern is read as a
product of languages (`lang`), and the matcher looks for a beginning of the text in it.
-/

namespace Xv6.User

open List
open Computability

/-! ## The matcher -/

/-- the bytes `^`, `*`, `$` and `.` -/
abbrev caret : UInt8 := 94
abbrev asterisk : UInt8 := 42
abbrev dollar : UInt8 := 36
abbrev period : UInt8 := 46

/-- `here` is `matchhere` of the pattern behind the star. -/
def matchstar (here : List UInt8 → Bool) (c : UInt8) : List UInt8 → Bool
  | [] => here []
  | x :: text => here (x :: text) || ((x == c || c == period) && matchstar here c text)

/-- `*text != 0 && (re[0] == '.' || re[0] == *text)`, and the rest of the pattern. -/
def matchone (here : List UInt8 → Bool) (c : UInt8) : List UInt8 → Bool
  | [] => false
  | x :: text => (c == period || c == x) && here text

def matchhere : (re text : List UInt8) → Bool
  | [], _ => true
  | [c], text => if c = dollar then text.isEmpty else matchone (matchhere []) c text
  | c :: d :: re, text =>
    if d = asterisk then matchstar (matchhere re) c text else matchone (matchhere (d :: re)) c text

/-- The `do` loop of `match`: every end of the text is tried, the empty one last. -/
def matchany (here : List UInt8 → Bool) : List UInt8 → Bool
  | [] => here []
  | x :: text => here (x :: text) || matchany here text

/-- `match`, a keyword here -/
def matchRe (re text : List UInt8) : Bool :=
  if re.head? = some caret then matchhere re.tail text else matchany (matchhere re) text

/-! ## The language of a pattern -/

inductive Item
  | star (c : UInt8)
  | one (c : UInt8)

/-- The items of a pattern, and whether a `$` ends it. -/
def items : List UInt8 → List Item × Bool
  | [] => ([], false)
  | [c] => if c = dollar then ([], true) else ([.one c], false)
  | c :: d :: re =>
    if d = asterisk then (.star c :: (items re).1, (items re).2)
    else (.one c :: (items (d :: re)).1, (items (d :: re)).2)

/-- A period stands for any character. -/
def letter (c : UInt8) : Language UInt8 := {w | ∃ x, (c = period ∨ c = x) ∧ w = [x]}

def Item.lang : Item → Language UInt8
  | .star c => (letter c)∗
  | .one c => letter c

def lang (l : List Item) : Language UInt8 := (l.map Item.lang).prod

/-- The text begins with a word of the language, or is one if the pattern ends in `$`. -/
def Begins (p : List Item × Bool) (text : List UInt8) : Prop :=
  ∃ w v, text = w ++ v ∧ w ∈ lang p.1 ∧ (p.2 = true → v = [])

variable {re text : List UInt8} {c x : UInt8} {l : List Item} {e : Bool}

theorem begins_nil (h : e = true → text = []) : Begins ([], e) text :=
  ⟨[], text, rfl, rfl, h⟩

theorem begins_end : Begins ([], true) text ↔ text = [] := by
  constructor
  · rintro ⟨w, v, rfl, hw, hv⟩
    obtain rfl : w = [] := hw
    exact hv rfl
  · intro h
    exact begins_nil fun _ => h

/-- A letter, then the rest. -/
theorem begins_one : Begins (.one c :: l, e) text ↔
    ∃ x v, text = x :: v ∧ (c = period ∨ c = x) ∧ Begins (l, e) v := by
  constructor
  · rintro ⟨w, v, rfl, hw, hv⟩
    obtain ⟨a, ⟨x, hx, rfl⟩, b, hb, rfl⟩ := Language.mem_mul.1 hw
    exact ⟨x, b ++ v, rfl, hx, b, v, rfl, hb, hv⟩
  · rintro ⟨x, t, rfl, hx, w, v, rfl, hw, hv⟩
    exact ⟨x :: w, v, rfl, Language.mem_mul.2 ⟨[x], ⟨x, hx, rfl⟩, w, hw, rfl⟩, hv⟩

/-- No letter, or one and the star again. -/
theorem begins_star : Begins (.star c :: l, e) text ↔
    Begins (l, e) text ∨ ∃ x v, text = x :: v ∧ (c = period ∨ c = x) ∧
      Begins (.star c :: l, e) v := by
  have hunfold : lang (.star c :: l) = lang l + letter c * lang (.star c :: l) := by
    show (letter c)∗ * lang l = lang l + letter c * ((letter c)∗ * lang l)
    rw [← mul_assoc]
    nth_rewrite 1 [← Language.one_add_self_mul_kstar_eq_kstar]
    rw [add_mul, one_mul]
  constructor
  · rintro ⟨w, v, rfl, hw, hv⟩
    rw [hunfold] at hw
    rcases hw with hw | hw
    · exact .inl ⟨w, v, rfl, hw, hv⟩
    · obtain ⟨a, ⟨x, hx, rfl⟩, b, hb, rfl⟩ := Language.mem_mul.1 hw
      exact .inr ⟨x, b ++ v, rfl, hx, b, v, rfl, hb, hv⟩
  · rintro (⟨w, v, rfl, hw, hv⟩ | ⟨x, t, rfl, hx, w, v, rfl, hw, hv⟩)
    · refine ⟨w, v, rfl, ?_, hv⟩
      rw [hunfold]
      exact .inl hw
    · refine ⟨x :: w, v, rfl, ?_, hv⟩
      rw [hunfold]
      exact .inr (Language.mem_mul.2 ⟨[x], ⟨x, hx, rfl⟩, w, hw, rfl⟩)

theorem matchone_iff {here : List UInt8 → Bool} (h : ∀ t, here t = true ↔ Begins (l, e) t) :
    matchone here c text = true ↔ Begins (.one c :: l, e) text := by
  rw [begins_one]
  cases text with
  | nil => simp [matchone]
  | cons x text => simp [matchone, h]

theorem matchstar_iff {here : List UInt8 → Bool} (h : ∀ t, here t = true ↔ Begins (l, e) t) :
    matchstar here c text = true ↔ Begins (.star c :: l, e) text := by
  induction text with
  | nil =>
    rw [begins_star]
    simp [matchstar, h]
  | cons x text ih =>
    rw [begins_star, matchstar, Bool.or_eq_true, Bool.and_eq_true, Bool.or_eq_true, h, ih]
    refine or_congr_right ⟨fun hx => ⟨x, text, rfl, ?_, hx.2⟩, ?_⟩
    · rcases hx.1 with hx | hx
      · exact .inr (beq_iff_eq.1 hx).symm
      · exact .inl (beq_iff_eq.1 hx)
    · rintro ⟨y, v, hv, hy, hb⟩
      cases hv
      refine ⟨?_, hb⟩
      rcases hy with rfl | rfl
      · exact .inr (beq_self_eq_true _)
      · exact .inl (beq_self_eq_true _)

/-- The three functions together: the induction follows the pattern, two bytes of it for a star. -/
theorem matchhere_iff (re text : List UInt8) :
    matchhere re text = true ↔ Begins (items re) text := by
  induction re using items.induct generalizing text with
  | case1 => exact iff_of_true rfl (begins_nil nofun)
  | case2 =>
    rw [matchhere, items, if_pos rfl, if_pos rfl, begins_end]
    exact isEmpty_iff
  | case3 c hc =>
    rw [matchhere, items, if_neg hc, if_neg hc]
    exact matchone_iff fun t => iff_of_true rfl (begins_nil nofun)
  | case4 c re ih =>
    rw [matchhere, items, if_pos rfl, if_pos rfl]
    exact matchstar_iff ih
  | case5 c d re hd ih =>
    rw [matchhere, items, if_neg hd, if_neg hd]
    exact matchone_iff ih

theorem matchany_iff {here : List UInt8 → Bool} (text : List UInt8) :
    matchany here text = true ↔ ∃ u v, text = u ++ v ∧ here v = true := by
  induction text with
  | nil => simp [matchany]
  | cons x text ih =>
    rw [matchany, Bool.or_eq_true, ih]
    constructor
    · rintro (h | ⟨u, v, rfl, h⟩)
      · exact ⟨[], x :: text, rfl, h⟩
      · exact ⟨x :: u, v, rfl, h⟩
    · rintro ⟨u, v, hu, h⟩
      cases u with
      | nil => exact .inl (hu ▸ h)
      | cons y u =>
        cases hu
        exact .inr ⟨u, v, rfl, h⟩

/-- **The matcher.**  It returns 1 exactly if the text, or for a pattern that does not start with
`^` some end of it, begins with a word of the pattern's language. -/
theorem match_correct (re text : List UInt8) : matchRe re text = true ↔
    if re.head? = some caret then Begins (items re.tail) text
    else ∃ u v, text = u ++ v ∧ Begins (items re) v := by
  unfold matchRe
  split
  · exact matchhere_iff re.tail text
  · rw [matchany_iff]
    simp only [matchhere_iff]

end Xv6.User
