import Mathlib

/-!
# Numbers as text (`printf.c`, `ulib.c`, `chmod.c`)

`printint` fills a buffer from the last digit on and prints it backwards.  `atoi` and `atoo` skip
blanks and one sign and then read digits, up to the first byte that is none.  `chmod` looks at its
argument before it converts it, but allows signs anywhere.
-/

namespace Xv6.User

open List

abbrev minus : UInt8 := 45
abbrev plus : UInt8 := 43
abbrev blank : UInt8 := 32

/-! ## printint -/

/-- `digits[d]` -/
def digit (d : Nat) : UInt8 := if d < 10 then 48 + UInt8.ofNat d else 55 + UInt8.ofNat d

/-- The `do` loop: the bytes it stores, or nothing if there is no room for them. -/
def printintLoop (base : Nat) : (room x : Nat) → Option (List UInt8)
  | 0, _ => none
  | room + 1, x =>
    if x / base = 0 then some [digit (x % base)]
    else (printintLoop base room (x / base)).map (digit (x % base) :: ·)

/-- The bytes that are printed; nothing if the 16 bytes of `buf` do not suffice. -/
def printint (xx : BitVec 32) (base : Nat) (sgn : Bool) : Option (List UInt8) :=
  if sgn && xx.msb then do
    let buf ← printintLoop base 16 (-xx).toNat
    if buf.length < 16 then some (buf ++ [minus]).reverse else none
  else do
    let buf ← printintLoop base 16 xx.toNat
    some buf.reverse

/-! ## atoi and atoo -/

/-- What is behind the blanks and the sign. -/
def unsigned (s : List UInt8) : List UInt8 :=
  let s := s.dropWhile (· == blank)
  if s.head? = some plus ∨ s.head? = some minus then s.tail else s

def sign (s : List UInt8) : BitVec 32 :=
  if (s.dropWhile (· == blank)).head? = some minus then -1 else 1

/-- `'0' <= c && c <= last` -/
def isDigit (last c : UInt8) : Bool := 48 ≤ c && c ≤ last

/-- `n = n*base + *s++ - '0'` -/
def value (base : BitVec 32) (s : List UInt8) : BitVec 32 :=
  s.foldl (fun n c => n * base + BitVec.ofNat 32 c.toNat - 48) 0

def ato (base : BitVec 32) (last : UInt8) (s : List UInt8) : BitVec 32 :=
  sign s * value base ((unsigned s).takeWhile (isDigit last))

def atoi (s : List UInt8) : BitVec 32 := ato 10 57 s

def atoo (s : List UInt8) : BitVec 32 := ato 8 55 s

variable {s : List UInt8} {c last : UInt8}

/-- The number that digits stand for. -/
def number (base : Nat) (s : List UInt8) : Nat := s.foldl (fun n c => n * base + (c.toNat - 48)) 0

theorem value_eq (base : Nat) (h : ∀ c ∈ s, isDigit last c) :
    value (BitVec.ofNat 32 base) s = BitVec.ofNat 32 (number base s) := by
  induction s using List.reverseRecOn with
  | nil => rfl
  | append_singleton s c ih =>
    have hc : 48 ≤ c.toNat := by
      have := h c (by simp)
      simp only [isDigit, Bool.and_eq_true, decide_eq_true_eq] at this
      exact UInt8.le_iff_toNat_le.1 this.1
    have hs := ih fun x hx => h x (by simp [hx])
    have hlast : BitVec.ofNat 32 c.toNat - 48 = BitVec.ofNat 32 (c.toNat - 48) := by
      nth_rewrite 1 [← Nat.sub_add_cancel hc]
      rw [BitVec.ofNat_add]
      exact BitVec.add_sub_cancel _ _
    unfold value number at hs ⊢
    rw [foldl_append, foldl_append, hs]
    show _ * BitVec.ofNat 32 base + BitVec.ofNat 32 c.toNat - 48 = BitVec.ofNat 32 (_ * base + _)
    rw [BitVec.ofNat_add, BitVec.ofNat_mul, ← hlast]
    exact add_sub_assoc _ _ _

/-- Before a digit nothing is skipped. -/
theorem unsigned_cons (hc : isDigit last c) (s : List UInt8) :
    unsigned (c :: s) = c :: s ∧ sign (c :: s) = 1 := by
  simp only [isDigit, Bool.and_eq_true, decide_eq_true_eq] at hc
  have hb : c ≠ blank ∧ c ≠ plus ∧ c ≠ minus := by
    refine ⟨?_, ?_, ?_⟩
    all_goals
      rintro rfl
      exact absurd hc.1 (by decide)
  have hdrop : (c :: s).dropWhile (· == blank) = c :: s := by simp [hb.1]
  unfold unsigned sign
  rw [hdrop]
  simp [hb.2]

theorem unsigned_digits (h : ∀ c ∈ s, isDigit last c) : unsigned s = s ∧ sign s = 1 := by
  cases s with
  | nil => exact ⟨rfl, rfl⟩
  | cons c s => exact unsigned_cons (h c mem_cons_self) s

/-- What digits are converted to, with and without a sign. -/
theorem ato_digits (base : Nat) (h : ∀ c ∈ s, isDigit last c) :
    ato (BitVec.ofNat 32 base) last s = BitVec.ofNat 32 (number base s) ∧
    ato (BitVec.ofNat 32 base) last (plus :: s) = BitVec.ofNat 32 (number base s) ∧
    ato (BitVec.ofNat 32 base) last (minus :: s) = -BitVec.ofNat 32 (number base s) := by
  have hv : value (BitVec.ofNat 32 base) (s.takeWhile (isDigit last)) =
      BitVec.ofNat 32 (number base s) := by
    rw [takeWhile_eq_self_iff.2 h]
    exact value_eq base h
  obtain ⟨hu, hs⟩ := unsigned_digits h
  refine ⟨?_, ?_, ?_⟩
  · unfold ato
    rw [hu, hs, hv, one_mul]
  · show 1 * value _ (s.takeWhile (isDigit last)) = _
    rw [hv, one_mul]
  · show -1 * value _ (s.takeWhile (isDigit last)) = _
    rw [hv, neg_mul, one_mul]

/-! ## There and back -/

/-- The decimal numeral of a number. -/
def numeral (z : Int) : List UInt8 :=
  (if z < 0 then [minus] else []) ++
    if z = 0 then [48] else ((Nat.digits 10 z.natAbs).map digit).reverse

theorem printintLoop_eq {x : Nat} (room : Nat) (hx : x ≠ 0) (h : x < 10 ^ room) :
    printintLoop 10 room x = some ((Nat.digits 10 x).map digit) := by
  induction room generalizing x with
  | zero => omega
  | succ room ih =>
    rw [printintLoop, Nat.digits_def' (by decide) (Nat.pos_of_ne_zero hx)]
    split
    · next hz =>
      rw [hz, Nat.digits_zero]
      rfl
    · next hz =>
      rw [ih hz (by rw [Nat.pow_succ] at h; omega)]
      rfl

theorem digit_toNat {d : Nat} (h : d < 10) : (digit d).toNat = 48 + d := by
  unfold digit
  rw [if_pos h, UInt8.toNat_add, UInt8.toNat_ofNat']
  show (48 + d % 2 ^ 8) % 2 ^ 8 = _
  omega

theorem number_digits {l : List Nat} (h : ∀ d ∈ l, d < 10) :
    number 10 (l.map digit).reverse = Nat.ofDigits 10 l := by
  induction l with
  | nil => rfl
  | cons d l ih =>
    have hl := ih fun x hx => h x (mem_cons_of_mem d hx)
    unfold number at hl ⊢
    rw [map_cons, reverse_cons, foldl_append, hl, Nat.ofDigits_cons]
    show Nat.ofDigits 10 l * 10 + ((digit d).toNat - 48) = _
    rw [digit_toNat (h d mem_cons_self)]
    omega

theorem isDigit_digit {d : Nat} (h : d < 10) : isDigit 57 (digit d) = true := by
  have hd := digit_toNat h
  simp only [isDigit, Bool.and_eq_true, decide_eq_true_eq, UInt8.le_iff_toNat_le, hd]
  exact ⟨Nat.le_add_right .., by show 48 + d ≤ 57; omega⟩

/-- What the loop leaves for a number of at most ten digits. -/
theorem printintLoop_spec {n : Nat} (h : n < 10 ^ 10) : ∃ buf, printintLoop 10 16 n = some buf ∧
    buf.length ≤ 10 ∧ (∀ c ∈ buf.reverse, isDigit 57 c) ∧ number 10 buf.reverse = n ∧
    buf.reverse = if n = 0 then [48] else ((Nat.digits 10 n).map digit).reverse := by
  by_cases hn : n = 0
  · subst hn
    refine ⟨[48], rfl, by decide, fun c hc => ?_, rfl, rfl⟩
    obtain rfl : c = 48 := mem_singleton.1 hc
    decide
  · have hlt : ∀ d ∈ Nat.digits 10 n, d < 10 := fun d hd => Nat.digits_lt_base (by decide) hd
    refine ⟨_, printintLoop_eq 16 hn (by omega), ?_, fun c hc => ?_, ?_, ?_⟩
    · rw [length_map]
      exact (Nat.digits_length_le_iff (by decide) n).2 h
    · obtain ⟨d, hd, rfl⟩ := mem_map.1 (mem_reverse.1 hc)
      exact isDigit_digit (hlt d hd)
    · rw [number_digits hlt, Nat.ofDigits_digits]
    · rw [if_neg hn]

/-- **Printing and reading.** -/
theorem printint_atoi (x : BitVec 32) : ∃ s, printint x 10 true = some s ∧ s.length ≤ 11 ∧
    s = numeral x.toInt ∧ atoi s = x := by
  have hlt := x.isLt
  have hint := BitVec.toInt_eq_msb_cond x
  unfold printint numeral
  by_cases hm : x.msb = true
  · have hbig := BitVec.le_toNat_of_msb_true hm
    rw [if_pos hm] at hint
    obtain ⟨buf, hbuf, hlen, hdig, hnum, hrev⟩ := printintLoop_spec (n := (-x).toNat) (by
      rw [BitVec.toNat_neg]
      omega)
    have habs : x.toInt.natAbs = (-x).toNat := by
      rw [BitVec.toNat_neg]
      omega
    have hn : (-x).toNat ≠ 0 := by omega
    refine ⟨(buf ++ [minus]).reverse, ?_, ?_, ?_, ?_⟩
    · rw [hm, Bool.and_self, if_pos rfl, hbuf]
      exact if_pos (by omega)
    · rw [length_reverse, length_append]
      exact Nat.succ_le_succ hlen
    · rw [if_pos (by omega), if_neg (by omega), habs, reverse_append, hrev, if_neg hn]
      rfl
    · rw [reverse_append]
      show atoi (minus :: buf.reverse) = x
      rw [show atoi (minus :: buf.reverse) = _ from (ato_digits 10 hdig).2.2, hnum,
        BitVec.ofNat_toNat, BitVec.setWidth_eq, neg_neg]
  · have hsmall := BitVec.toNat_lt_of_msb_false (Bool.not_eq_true _ ▸ hm)
    rw [if_neg hm] at hint
    obtain ⟨buf, hbuf, hlen, hdig, hnum, hrev⟩ := printintLoop_spec (n := x.toNat) (by omega)
    have habs : x.toInt.natAbs = x.toNat := by omega
    refine ⟨buf.reverse, ?_, ?_, ?_, ?_⟩
    · rw [Bool.eq_false_iff.2 hm, Bool.and_false, if_neg Bool.false_ne_true, hbuf]
      rfl
    · rw [length_reverse]
      omega
    · rw [if_neg (by omega), hrev, habs]
      simp only [nil_append, hint, Int.natCast_eq_zero]
    · rw [show atoi buf.reverse = _ from (ato_digits 10 hdig).1, hnum, BitVec.ofNat_toNat,
        BitVec.setWidth_eq]

/-! ## chmod -/

/-- How `main` of `chmod` ends, up to the result of the system call. -/
inductive ChmodEnd
  | prints (text : String)
  | calls (path : List UInt8) (mode : BitVec 32)
deriving DecidableEq

/-- A byte that the validation loop lets through. -/
def chmodOk (c : UInt8) : Bool := c == plus || c == minus || isDigit 55 c

def chmodMain : (argv : List (List UInt8)) → ChmodEnd
  | [_, md, path] =>
    if md.length > 4 then .prints "Too many numbers for mode.\n\n"
    else if !md.all chmodOk then .prints "Invalid Octal Representation.\n\n"
    else if (atoo md).toInt < 0 ∨ (atoo md).toInt > 1023 then .prints "Invalid mode.\n\n"
    else .calls path (atoo md)
  | _ => .prints "Incorrect Number of Arguments.\n\n"

/-- The argument gets to the conversion. -/
def Passes (md : List UInt8) : Prop := md.length ≤ 4 ∧ md.all chmodOk = true

/-- What `atoo` does not read. -/
def unread (md : List UInt8) : List UInt8 := (unsigned md).dropWhile (isDigit 55)

/-- An optional sign and one or more octal digits. -/
def Numeral (md sg ds : List UInt8) : Prop := md = sg ++ ds ∧
  (sg = [] ∨ sg = [plus] ∨ sg = [minus]) ∧ ds ≠ [] ∧ ∀ c ∈ ds, isDigit 55 c

section
variable {prog md path sg ds : List UInt8} {m : BitVec 32}

theorem chmodMain_calls (h : chmodMain [prog, md, path] = .calls path m) :
    Passes md ∧ m = atoo md := by
  unfold chmodMain at h
  dsimp only at h
  split at h
  · cases h
  · next hlen =>
    split at h
    · cases h
    · next hok =>
      split at h
      · cases h
      · cases h
        exact ⟨⟨Nat.le_of_not_lt hlen, by simpa using hok⟩, rfl⟩

/-- No blank passes: the conversion skips a sign and nothing else. -/
theorem Passes.split (h : Passes md) :
    ∃ sg, md = sg ++ unsigned md ∧ (sg = [] ∨ sg = [plus] ∨ sg = [minus]) := by
  cases md with
  | nil => exact ⟨[], rfl, .inl rfl⟩
  | cons c s =>
    have hc : chmodOk c = true := all_eq_true.1 h.2 c mem_cons_self
    simp only [chmodOk, Bool.or_eq_true, beq_iff_eq] at hc
    rcases hc with (rfl | rfl) | hc
    · exact ⟨[plus], rfl, .inr (.inl rfl)⟩
    · exact ⟨[minus], rfl, .inr (.inr rfl)⟩
    · exact ⟨[], (unsigned_cons hc s).1.symm, .inl rfl⟩

theorem number_lt (h : ∀ c ∈ s, isDigit 55 c) : number 8 s < 8 ^ s.length := by
  induction s using List.reverseRecOn with
  | nil => decide
  | append_singleton s c ih =>
    have hs := ih fun x hx => h x (by simp [hx])
    have hc : c.toNat ≤ 55 := by
      have := h c (by simp)
      simp only [isDigit, Bool.and_eq_true, decide_eq_true_eq] at this
      exact UInt8.le_iff_toNat_le.1 this.2
    unfold number at hs ⊢
    rw [foldl_append, length_append, length_singleton, Nat.pow_succ]
    show _ * 8 + (c.toNat - 48) < _
    omega

/-- The whole of a numeral is read. -/
theorem Numeral.atoo (h : Numeral md sg ds) (hlen : md.length ≤ 4) : unread md = [] ∧
    (atoo md).toInt = if sg = [minus] then -(number 8 ds : Int) else number 8 ds := by
  obtain ⟨rfl, hsg, -, hd⟩ := h
  have hlt := number_lt hd
  have hpow : 8 ^ ds.length ≤ 8 ^ 4 := by
    refine Nat.pow_le_pow_right (by decide) ?_
    rw [length_append] at hlen
    omega
  have hread : ds.dropWhile (isDigit 55) = [] := dropWhile_eq_nil_iff.2 hd
  obtain ⟨h1, h2, h3⟩ := ato_digits 8 hd
  have hnat : (BitVec.ofNat 32 (number 8 ds)).toNat = number 8 ds := by
    rw [BitVec.toNat_ofNat]
    omega
  have hpos : (BitVec.ofNat 32 (number 8 ds)).toInt = number 8 ds := by
    rw [BitVec.toInt_eq_toNat_cond, hnat, if_pos (by omega)]
  rcases hsg with rfl | rfl | rfl
  · refine ⟨?_, ?_⟩
    · show (unsigned ds).dropWhile _ = []
      rw [(unsigned_digits hd).1, hread]
    · rw [if_neg (by decide)]
      show (ato 8 55 ds).toInt = _
      rw [show ato 8 55 ds = _ from h1, hpos]
  · refine ⟨hread, ?_⟩
    rw [if_neg (by decide)]
    show (ato 8 55 (plus :: ds)).toInt = _
    rw [show ato 8 55 (plus :: ds) = _ from h2, hpos]
  · refine ⟨hread, ?_⟩
    rw [if_pos rfl]
    show (ato 8 55 (minus :: ds)).toInt = _
    rw [show ato 8 55 (minus :: ds) = _ from h3, BitVec.toInt_eq_toNat_cond, BitVec.toNat_neg, hnat]
    split <;> omega

end

/-- **The argument of chmod.**  The mode is what the whole argument says, and no argument that
passes is read only in part, if and only if an argument that passes has no sign but in front and at
least one digit. -/
theorem chmod_argument (prog md path : List UInt8) :
    ((∀ m, chmodMain [prog, md, path] = .calls path m → ∃ sg ds, Numeral md sg ds ∧
        m.toInt = if sg = [minus] then -(number 8 ds : Int) else number 8 ds) ∧
      (Passes md → unread md = [])) ↔ (Passes md → ∃ sg ds, Numeral md sg ds) := by
  constructor
  · rintro ⟨hcall, hread⟩ hp
    obtain ⟨sg, hmd, hsg⟩ := hp.split
    by_cases hne : unsigned md = []
    · -- a sign alone is converted to 0
      rw [hne, append_nil] at hmd
      subst hmd
      have hzero : chmodMain [prog, md, path] = .calls path 0 := by
        rcases hsg with rfl | rfl | rfl
        · rfl
        · rfl
        · rfl
      obtain ⟨sg, ds, h, -⟩ := hcall 0 hzero
      exact ⟨sg, ds, h⟩
    · exact ⟨sg, unsigned md, hmd, hsg, hne, dropWhile_eq_nil_iff.1 (hread hp)⟩
  · intro h
    refine ⟨fun m hm => ?_, fun hp => ?_⟩
    · obtain ⟨hp, rfl⟩ := chmodMain_calls hm
      obtain ⟨sg, ds, hn⟩ := h hp
      exact ⟨sg, ds, hn, (hn.atoo hp.1).2⟩
    · obtain ⟨sg, ds, hn⟩ := h hp
      exact (hn.atoo hp.1).1

/-- "1+7" is read as 1. -/
theorem chmod_sign_inside : chmodMain [[], [49, plus, 55], [102]] = .calls [102] 1 ∧
    unread [49, plus, 55] = [plus, 55] := by
  decide

end Xv6.User
