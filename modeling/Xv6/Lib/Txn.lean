import Mathlib

/-!
# Transactions over a store

A history records every write, by the operation that made it.  The operations of
the open transaction are `cur`, those of the committed transactions are `done`.
`durable` is the store after the writes of the committed operations, all of them
and no others; `view` also has those of the open transaction.  The rules say how
the two change when an operation starts, when it writes, when the transaction
commits and when it is dropped.
-/

namespace Xv6.Txn

open List

variable {ω β δ : Type}

structure Write (ω β δ : Type) where
  op : ω
  addr : β
  val : δ

def replay [DecidableEq β] (d : β → δ) (ws : List (Write ω β δ)) : β → δ :=
  ws.foldl (fun d w => Function.update d w.addr w.val) d

theorem replay_snoc [DecidableEq β] (d : β → δ) (ws : List (Write ω β δ)) (w : Write ω β δ) :
    replay d (ws ++ [w]) = Function.update (replay d ws) w.addr w.val := by
  simp [replay]

structure Hist (ω β δ : Type) where
  writes : List (Write ω β δ) := []
  cur : List ω := []
  done : List ω := []

namespace Hist

def start (h : Hist ω β δ) (o : ω) : Hist ω β δ := { h with cur := h.cur ++ [o] }

def write (h : Hist ω β δ) (o : ω) (b : β) (v : δ) : Hist ω β δ :=
  { h with writes := h.writes ++ [⟨o, b, v⟩] }

def commit (h : Hist ω β δ) : Hist ω β δ := { h with cur := [], done := h.done ++ h.cur }

def drop (h : Hist ω β δ) : Hist ω β δ := { h with cur := [] }

variable [DecidableEq ω]

/-- The writes of the operations in `os`. -/
def writesOf (h : Hist ω β δ) (os : List ω) : List (Write ω β δ) := h.writes.filter fun w => w.op ∈ os

/-- The addresses that the open transaction has written. -/
def touched (h : Hist ω β δ) : List β := (h.writesOf h.cur).map Write.addr

/-- The addresses that one operation has written. -/
def touchedBy (h : Hist ω β δ) (o : ω) : List β := (h.writesOf [o]).map Write.addr

/-- The store after the writes of the committed operations. -/
def durable [DecidableEq β] (h : Hist ω β δ) (d : β → δ) : β → δ := replay d (h.writesOf h.done)

/-- The store after the writes of the committed operations and of the open transaction. -/
def view [DecidableEq β] (h : Hist ω β δ) (d : β → δ) : β → δ := replay d (h.writesOf (h.done ++ h.cur))

section
variable {h : Hist ω β δ} {o : ω}

theorem writesOf_write_of_mem {os : List ω} (ho : o ∈ os) (b : β) (v : δ) :
    (h.write o b v).writesOf os = h.writesOf os ++ [⟨o, b, v⟩] := by
  unfold writesOf write
  rw [filter_append, filter_cons_of_pos (by simpa using ho), filter_nil]

theorem writesOf_write_of_notMem {os : List ω} (ho : o ∉ os) (b : β) (v : δ) :
    (h.write o b v).writesOf os = h.writesOf os := by
  unfold writesOf write
  rw [filter_append, filter_cons_of_neg (by simpa using ho), filter_nil,
    append_nil]

/-- An operation that has not written does not matter. -/
theorem writesOf_fresh (hf : ∀ w ∈ h.writes, w.op ≠ o) (os : List ω) : h.writesOf (os ++ [o]) = h.writesOf os := by
  refine filter_congr fun w hw => ?_
  simp [hf w hw]

theorem touched_start (hf : ∀ w ∈ h.writes, w.op ≠ o) : (h.start o).touched = h.touched :=
  congrArg (List.map Write.addr) (writesOf_fresh hf h.cur)

theorem touched_write (ho : o ∈ h.cur) (b : β) (v : δ) :
    (h.write o b v).touched = h.touched ++ [b] := by
  unfold touched
  rw [show (h.write o b v).cur = h.cur from rfl, writesOf_write_of_mem ho, map_append]
  rfl

theorem touchedBy_write (b : β) (v : δ) : (h.write o b v).touchedBy o = h.touchedBy o ++ [b] := by
  unfold touchedBy
  rw [writesOf_write_of_mem (mem_singleton_self o), map_append]
  rfl

theorem touchedBy_write_of_ne {o' : ω} (hne : o ≠ o') (b : β) (v : δ) :
    (h.write o b v).touchedBy o' = h.touchedBy o' := by
  unfold touchedBy
  rw [writesOf_write_of_notMem (by simpa using hne)]

end

section
variable [DecidableEq β] {h : Hist ω β δ} {d : β → δ} {o : ω}

theorem view_start (hf : ∀ w ∈ h.writes, w.op ≠ o) : (h.start o).view d = h.view d := by
  unfold view
  rw [show (h.start o).done ++ (h.start o).cur = (h.done ++ h.cur) ++ [o] by simp [start]]
  exact congrArg _ (writesOf_fresh hf _)

theorem durable_write (ho : o ∉ h.done) (b : β) (v : δ) :
    (h.write o b v).durable d = h.durable d :=
  congrArg _ (writesOf_write_of_notMem ho b v)

theorem view_write (ho : o ∈ h.cur) (b : β) (v : δ) :
    (h.write o b v).view d = Function.update (h.view d) b v := by
  unfold view
  rw [show (h.write o b v).done ++ (h.write o b v).cur = h.done ++ h.cur from rfl,
    writesOf_write_of_mem (mem_append_right _ ho), replay_snoc]

@[simp] theorem durable_commit : h.commit.durable d = h.view d := rfl

@[simp] theorem view_commit : h.commit.view d = h.view d := by
  unfold view
  rw [show h.commit.done ++ h.commit.cur = h.done ++ h.cur from append_nil _]
  rfl

@[simp] theorem durable_drop : h.drop.durable d = h.durable d := rfl

@[simp] theorem view_drop : h.drop.view d = h.durable d := by
  unfold view
  rw [show h.drop.done ++ h.drop.cur = h.done from append_nil _]
  rfl

/-- A transaction that has written nothing has nothing to lose. -/
theorem view_of_touched (ht : h.touched = []) : h.view d = h.durable d := by
  unfold view durable
  congr 1
  refine filter_congr fun w hw => ?_
  have hc : w.op ∉ h.cur := fun hc => by
    have hm : w ∈ h.writesOf h.cur := mem_filter.2 ⟨hw, by simpa using hc⟩
    rw [map_eq_nil_iff.1 ht] at hm
    exact not_mem_nil hm
  simp [hc]

end

end Hist

end Xv6.Txn
