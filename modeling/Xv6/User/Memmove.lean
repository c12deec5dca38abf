import Mathlib

/-!
# The two `memmove`s (`string.c`, `ulib.c`)

The kernel's copies from the end if the source begins before the destination and reaches into it.
The user library's always copies from the start: where it has to read what it has already written,
it repeats the bytes between source and destination (`copyUp_eq`).  Its length is signed.
-/

namespace Xv6.User

open Function

abbrev Memory := Nat → UInt8

/-- `while(n-- > 0) *d++ = *s++` -/
def copyUp : (n d s : Nat) → Memory → Memory
  | 0, _, _, m => m
  | n + 1, d, s, m => copyUp n ((d + 1) % 2 ^ 32) ((s + 1) % 2 ^ 32) (update m d (m s))

/-- `while(n-- > 0) *--d = *--s` -/
def copyDown : (n d s : Nat) → Memory → Memory
  | 0, _, _, m => m
  | n + 1, d, s, m =>
    let d := (d + (2 ^ 32 - 1)) % 2 ^ 32
    let s := (s + (2 ^ 32 - 1)) % 2 ^ 32
    copyDown n d s (update m d (m s))

/-- `memmove` of the kernel -/
def kmemmove (dst src n : Nat) (m : Memory) : Memory :=
  if src < dst ∧ (src + n) % 2 ^ 32 > dst then
    copyDown n ((dst + n) % 2 ^ 32) ((src + n) % 2 ^ 32) m
  else copyUp n dst src m

/-- `memmove` of the user library; `n` is an `int`. -/
def umemmove (dst src n : Nat) (m : Memory) : Memory :=
  copyUp (BitVec.ofNat 32 n).toInt.toNat dst src m

/-- The destination has the bytes of the source, and nothing else has changed. -/
structure Moved (dst src n : Nat) (m m' : Memory) : Prop where
  moved : ∀ i < n, m' (dst + i) = m (src + i)
  frame : ∀ a, a < dst ∨ dst + n ≤ a → m' a = m a

variable {d s n : Nat} {m : Memory}

theorem succ_mod_cases (q k : Nat) :
    (q % k + 1 = k ∧ (q + 1) % k = 0) ∨ (q % k + 1 ≠ k ∧ (q + 1) % k = q % k + 1) := by
  rw [← Nat.mod_add_mod]
  by_cases h : q % k + 1 = k
  · exact .inl ⟨h, by rw [h, Nat.mod_self]⟩
  · refine .inr ⟨h, ?_⟩
    rcases Nat.eq_zero_or_pos k with rfl | hk
    · exact Nat.mod_zero _
    · have := Nat.mod_lt q hk
      exact Nat.mod_eq_of_lt (by omega)

/-- From the start: a byte comes from the source, again and again if it is shorter than the way. -/
theorem copyUp_eq (hd : d + n < 2 ^ 32) (hs : s + n < 2 ^ 32) (a : Nat) : copyUp n d s m a =
    if d ≤ a ∧ a < d + n then m (s + (a - d) % (d - s)) else m a := by
  induction n generalizing d s m with
  | zero =>
    rw [if_neg (by omega)]
    rfl
  | succ n ih =>
    rw [copyUp, Nat.mod_eq_of_lt (by omega), Nat.mod_eq_of_lt (by omega), ih (by omega) (by omega)]
    rcases Nat.lt_trichotomy a d with hlt | rfl | hgt
    · rw [if_neg (by omega), if_neg (by omega), update_of_ne (by omega)]
    · rw [if_neg (by omega), if_pos (by omega), update_self, Nat.sub_self, Nat.zero_mod, Nat.add_zero]
    · by_cases hin : a < d + (n + 1)
      · have hq : a - d = a - (d + 1) + 1 := by omega
        rw [if_pos (by omega), if_pos (by omega), Nat.add_sub_add_right, hq]
        -- the byte at `d` is the first one of the source
        rcases succ_mod_cases (a - (d + 1)) (d - s) with ⟨hk, hz⟩ | ⟨hk, hz⟩
        · rw [hz, show s + 1 + (a - (d + 1)) % (d - s) = d by omega, update_self]
          rfl
        · rw [hz, update_of_ne (by omega)]
          congr 1
          omega
      · rw [if_neg (by omega), if_neg (by omega), update_of_ne (by omega)]

/-- From the end: nothing is read that was written before. -/
theorem copyDown_eq (hd : d + n < 2 ^ 32) (hs : s < d) (a : Nat) :
    copyDown n (d + n) (s + n) m a = if d ≤ a ∧ a < d + n then m (s + (a - d)) else m a := by
  induction n generalizing m with
  | zero =>
    rw [if_neg (by omega)]
    rfl
  | succ n ih =>
    have hd' : (d + (n + 1) + (2 ^ 32 - 1)) % 2 ^ 32 = d + n := by omega
    have hs' : (s + (n + 1) + (2 ^ 32 - 1)) % 2 ^ 32 = s + n := by omega
    rw [copyDown, hd', hs', ih (by omega)]
    by_cases hin : d ≤ a ∧ a < d + n
    · rw [if_pos hin, if_pos (by omega), update_of_ne (by omega)]
    · rw [if_neg hin]
      by_cases he : a = d + n
      · rw [he, update_self, if_pos (by omega), Nat.add_sub_cancel_left]
      · rw [update_of_ne he, if_neg (by omega)]

theorem kmemmove_moved (hd : d + n < 2 ^ 32) (hs : s + n < 2 ^ 32) :
    Moved d s n m (kmemmove d s n m) := by
  unfold kmemmove
  rw [Nat.mod_eq_of_lt hd, Nat.mod_eq_of_lt hs]
  split
  · next h =>
    refine ⟨fun i hi => ?_, fun a ha => ?_⟩
    · rw [copyDown_eq hd h.1, if_pos (by omega), Nat.add_sub_cancel_left]
    · rw [copyDown_eq hd h.1, if_neg (by omega)]
  · next h =>
    refine ⟨fun i hi => ?_, fun a ha => ?_⟩
    · rw [copyUp_eq hd hs, if_pos (by omega), Nat.add_sub_cancel_left]
      congr 2
      by_cases hlt : s < d
      · exact Nat.mod_eq_of_lt (by omega)
      · rw [Nat.sub_eq_zero_of_le (by omega), Nat.mod_zero]
    · rw [copyUp_eq hd hs, if_neg (by omega)]

theorem umemmove_count (h : n < 2 ^ 32) :
    (BitVec.ofNat 32 n).toInt.toNat = if n < 2 ^ 31 then n else 0 := by
  rw [BitVec.toInt_eq_toNat_cond, BitVec.toNat_ofNat, Nat.mod_eq_of_lt h]
  split
  · rw [if_pos (by omega), Int.toNat_natCast]
  · rw [if_neg (by omega)]
    omega

/-- **memmove.**  The kernel's moves the bytes in every case.  The user library's does, for a length
that is not negative as an `int`, if and only if the source does not reach into a destination behind
it, or repeats itself there. -/
theorem memmove_agree (m : Memory) (dst src n : Nat) (hd : dst + n < 2 ^ 32)
    (hs : src + n < 2 ^ 32) : Moved dst src n m (kmemmove dst src n m) ∧
    (Moved dst src n m (umemmove dst src n m) ↔
      if n < 2 ^ 31 then
        src < dst ∧ dst < src + n → ∀ i < n, m (src + i % (dst - src)) = m (src + i)
      else ∀ i < n, m (dst + i) = m (src + i)) := by
  refine ⟨kmemmove_moved hd hs, ?_⟩
  unfold umemmove
  rw [umemmove_count (by omega)]
  split
  · have hbyte : ∀ i < n, copyUp n dst src m (dst + i) = m (src + i % (dst - src)) := by
      intro i hi
      rw [copyUp_eq hd hs, if_pos (by omega), Nat.add_sub_cancel_left]
    constructor
    · intro h _ i hi
      rw [← hbyte i hi, h.moved i hi]
    · intro h
      refine ⟨fun i hi => ?_, fun a ha => ?_⟩
      · rw [hbyte i hi]
        by_cases hov : src < dst ∧ dst < src + n
        · exact h hov i hi
        · congr 2
          rcases Nat.lt_or_ge src dst with hlt | hge
          · exact Nat.mod_eq_of_lt (by omega)
          · rw [Nat.sub_eq_zero_of_le hge, Nat.mod_zero]
      · rw [copyUp_eq hd hs, if_neg (by omega)]
  · exact ⟨fun h => h.moved, fun h => ⟨h, fun _ _ => rfl⟩⟩

/-- Two bytes to the place one before them. -/
theorem memmove_agree_down : Moved 0 1 2 (fun a => UInt8.ofNat a)
    (umemmove 0 1 2 fun a => UInt8.ofNat a) :=
  (memmove_agree _ 0 1 2 (by decide) (by decide)).2.2 (by rw [if_pos (by decide)]; omega)

/-- Two bytes to the place one behind them: the second one is lost. -/
theorem umemmove_overlap : umemmove 1 0 2 (fun a => UInt8.ofNat a) 2 = 0 ∧
    ¬ Moved 1 0 2 (fun a => UInt8.ofNat a) (umemmove 1 0 2 fun a => UInt8.ofNat a) := by
  have hlost : umemmove 1 0 2 (fun a => UInt8.ofNat a) 2 = 0 := by decide
  refine ⟨hlost, fun h => ?_⟩
  have := h.moved 1 (by decide)
  rw [hlost] at this
  exact absurd this (by decide)

end Xv6.User
