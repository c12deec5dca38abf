import Mathlib

/-!
# Ring buffers with wrapping counters

`N` cells and two counters of `w` bits: how many elements have ever been put in and how many have
been taken out.  The cell of a counter is its value modulo `N`.  When `N` divides `2 ^ w` the
counters can wrap: `Holds r n q` says that `n` elements have been taken out, `n` any number, and
that the list `q` waits in the ring.
-/

namespace Xv6

open Function List

structure Ring (α : Type) (N w : Nat) where
  data : Fin N → α
  rd : BitVec w
  wr : BitVec w

namespace Ring

variable {α : Type} {N w : Nat} [NeZero N]

def cell (c : BitVec w) : Fin N := Fin.ofNat N c.toNat

def push (r : Ring α N w) (x : α) : Ring α N w :=
  { r with data := update r.data (cell r.wr) x, wr := r.wr + 1 }

def front (r : Ring α N w) : α := r.data (cell r.rd)

def pop (r : Ring α N w) : Ring α N w := { r with rd := r.rd + 1 }

structure Holds (r : Ring α N w) (n : Nat) (q : List α) : Prop where
  rd : r.rd = BitVec.ofNat w n
  wr : r.wr = BitVec.ofNat w (n + q.length)
  le : q.length ≤ N
  data : ∀ k x, q[k]? = some x → r.data (Fin.ofNat N (n + k)) = x

theorem cell_ofNat (hN : N ∣ 2 ^ w) (k : Nat) :
    cell (BitVec.ofNat w k) = Fin.ofNat N k := by
  apply Fin.ext
  simp only [cell, Fin.ofNat, BitVec.toNat_ofNat]
  exact Nat.mod_mod_of_dvd k hN

/-- Cells less than `N` apart are different. -/
theorem ofNat_ne {a b : Nat} (h : a < b) (hb : b < a + N) : Fin.ofNat N a ≠ Fin.ofNat N b := by
  intro he
  have hmod : a ≡ b [MOD N] := congrArg Fin.val he
  have hdvd : N ∣ b - a := (Nat.modEq_iff_dvd' h.le).1 hmod
  have := Nat.le_of_dvd (by omega) hdvd
  omega

variable {r : Ring α N w} {n : Nat} {q : List α}

theorem Holds.start {r : Ring α N w} (hrd : r.rd = 0) (hwr : r.wr = 0) : r.Holds 0 [] where
  rd := hrd
  wr := hwr
  le := Nat.zero_le N
  data := by simp

/-- The counters tell how many elements wait. -/
theorem Holds.count (h : r.Holds n q) (hN : N < 2 ^ w) : (r.wr - r.rd).toNat = q.length := by
  have hle := h.le
  rw [h.rd, h.wr, BitVec.ofNat_add, BitVec.add_comm, BitVec.add_sub_cancel, BitVec.toNat_ofNat]
  exact Nat.mod_eq_of_lt (by omega)

theorem Holds.empty_iff (h : r.Holds n q) (hN : N < 2 ^ w) : r.rd = r.wr ↔ q = [] := by
  constructor
  · intro he
    have := h.count hN
    rw [he, BitVec.sub_self] at this
    exact length_eq_zero_iff.1 this.symm
  · rintro rfl
    rw [h.rd, h.wr]
    rfl

theorem Holds.full_iff (h : r.Holds n q) (hN : N < 2 ^ w) :
    r.wr = r.rd + BitVec.ofNat w N ↔ q.length = N := by
  constructor
  · intro he
    have := h.count hN
    rw [he, BitVec.add_comm, BitVec.add_sub_cancel, BitVec.toNat_ofNat,
      Nat.mod_eq_of_lt hN] at this
    exact this.symm
  · intro hq
    rw [h.rd, h.wr, hq, BitVec.ofNat_add]

theorem Holds.push (h : r.Holds n q) (hN : N ∣ 2 ^ w) (hq : q.length < N) (x : α) :
    (r.push x).Holds n (q ++ [x]) where
  rd := h.rd
  wr := by
    show r.wr + 1 = _
    rw [h.wr, length_append, ← Nat.add_assoc]
    exact (BitVec.ofNat_add (n + q.length) 1).symm
  le := by
    rw [length_append]
    exact hq
  data k y hk := by
    have hcell : (cell r.wr : Fin N) = Fin.ofNat N (n + q.length) := by rw [h.wr, cell_ofNat hN]
    show update r.data (cell r.wr) x _ = y
    rw [hcell]
    by_cases hlt : k < q.length
    · rw [update_of_ne (ofNat_ne (by omega) (by omega))]
      exact h.data k y (by rwa [getElem?_append_left hlt] at hk)
    · have hkq : k = q.length := by
        have := (List.getElem?_eq_some_iff.1 hk).1
        simp only [length_append, length_cons, length_nil] at this
        omega
      subst hkq
      rw [update_self]
      simpa using hk

variable {x : α}

theorem Holds.front (h : r.Holds n (x :: q)) (hN : N ∣ 2 ^ w) : r.front = x := by
  unfold Ring.front
  rw [h.rd, cell_ofNat hN]
  exact h.data 0 x rfl

theorem Holds.pop (h : r.Holds n (x :: q)) : r.pop.Holds (n + 1) q where
  rd := by
    show r.rd + 1 = _
    rw [h.rd, BitVec.ofNat_add]
    rfl
  wr := by
    show r.wr = _
    rw [h.wr, length_cons]
    congr 1
    omega
  le := (Nat.le_succ _).trans h.le
  data k y hk := by
    rw [Nat.add_assoc, Nat.add_comm 1 k]
    exact h.data (k + 1) y (by rwa [getElem?_cons_succ])

/-- The last element can be taken back. -/
def back (r : Ring α N w) : α := r.data (cell (r.wr - 1))

def unpush (r : Ring α N w) : Ring α N w := { r with wr := r.wr - 1 }

theorem Holds.wr_sub (h : r.Holds n (q ++ [x])) : r.wr - 1 = BitVec.ofNat w (n + q.length) := by
  rw [h.wr, length_append, ← Nat.add_assoc, BitVec.ofNat_add]
  exact BitVec.add_sub_cancel ..

theorem Holds.back (h : r.Holds n (q ++ [x])) (hN : N ∣ 2 ^ w) : r.back = x := by
  unfold Ring.back
  rw [h.wr_sub, cell_ofNat hN]
  exact h.data q.length x getElem?_concat_length

theorem Holds.unpush (h : r.Holds n (q ++ [x])) : r.unpush.Holds n q where
  rd := h.rd
  wr := h.wr_sub
  le := by
    have hle := h.le
    rw [length_append] at hle
    omega
  data k y hk := by
    have hlt := (List.getElem?_eq_some_iff.1 hk).1
    exact h.data k y (by rwa [getElem?_append_left hlt])

end Ring

end Xv6
