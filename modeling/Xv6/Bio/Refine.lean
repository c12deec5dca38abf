import Xv6.Bio.Invariant

/-!
# The linked cache refines the cache of the log

`Log.Bcache` has the buffers on a list, the most recently used first, and names a block by its
number alone.  For the one device that the file system uses, `bget` and `brelse` on the links do
what they do there.
-/

namespace Xv6.Bio

open List
open Log (NBUF BufId)

/-- The device of the file system. -/
abbrev ROOTDEV : BitVec 32 := 1

/-- One buffer in the two models. -/
structure Buf.Abs (u : Buf) (v : Log.Buf) : Prop where
  dev : u.dev = NODEV ∧ v.blockno = none ∨
    u.dev = ROOTDEV ∧ v.blockno = some u.blockno.toNat
  busy : u.busy = v.busy.isSome
  valid : u.valid = v.valid
  dirty : u.dirty = v.dirty

/-- The links of `c` spell out the list of `d`, and the buffers are the same. -/
structure Bcache.Abs (c : Bcache) (d : Log.Bcache) : Prop where
  cycle : c.Cycle d.mru
  nodup : d.mru.Nodup
  all : ∀ b, b ∈ d.mru
  buf : ∀ b, (c.buf b).Abs (d.buf b)

theorem Buf.Abs.caches_eq {u : Buf} {v : Log.Buf} (h : u.Abs v) (blockno : BitVec 32) :
    Bcache.caches ROOTDEV blockno u = decide (v.blockno = some blockno.toNat) := by
  rw [Bcache.caches]
  rcases h.dev with ⟨hd, hb⟩ | ⟨hd, hb⟩
  · have hne : NODEV ≠ 1#32 := by decide
    simp [hd, hb, hne]
  · simp [hd, hb, BitVec.toNat_inj]

theorem Buf.Abs.clean_eq {u : Buf} {v : Log.Buf} (h : u.Abs v) :
    Bcache.clean u = decide (v.busy = none ∧ v.dirty = false) := by
  rw [Bcache.clean, h.busy, h.dirty]
  simp

theorem binit_abs : Bcache.binit.Abs .init :=
  ⟨Bcache.binit_cycle, nodup_reverse.2 (nodup_finRange NBUF), by simp [Log.Bcache.init],
    fun b => binit_buf b ▸ ⟨.inl ⟨rfl, rfl⟩, rfl, rfl, rfl⟩⟩

namespace Bcache.Abs

variable {c : Bcache} {d : Log.Bcache} {b : BufId}

theorem modify (h : c.Abs d) {f : Buf → Buf} {g : Log.Buf → Log.Buf}
    (hb : (f (c.buf b)).Abs (g (d.buf b))) : (c.modify b f).Abs (d.modify b g) := by
  refine ⟨h.cycle, h.nodup, h.all, fun x => ?_⟩
  by_cases hx : x = b
  · subst hx
    rw [Bcache.modify_buf_self, Log.Bcache.modify_buf_self]
    exact hb
  · rw [Bcache.modify_buf_of_ne f hx, Log.Bcache.modify_buf_of_ne g hx]
    exact h.buf x

/-- `bget` gives the same buffer, sleeps in the same states and panics in the same states. -/
theorem bget_sim (h : c.Abs d) (t : Log.Slot) (blockno : BitVec 32) :
    match d.bget t blockno.toNat with
    | .ok (b, d') => ∃ c', c.bget ROOTDEV blockno = .ok (some b, c') ∧ c'.Abs d'
    | .error .waits => c.bget ROOTDEV blockno = .ok (none, c)
    | .error (.panics _) => c.bget ROOTDEV blockno = .error .noBuffers := by
  unfold Bcache.bget Log.Bcache.bget Log.Bcache.lookup Log.Bcache.victim
  rw [h.cycle.seek_next h.nodup, h.cycle.seek_prev h.nodup]
  simp only [(h.buf _).caches_eq, (h.buf _).clean_eq]
  cases hl : d.mru.find? fun b => decide ((d.buf b).blockno = some blockno.toNat) with
  | some b =>
    have hbusy := (h.buf b).busy
    cases hv : (d.buf b).busy with
    | none =>
      rw [hv] at hbusy
      simp only [Option.map_some, hbusy, hv, Option.isSome_none, if_true]
      have hb := h.buf b
      exact ⟨_, rfl, h.modify ⟨hb.dev, rfl, hb.valid, hb.dirty⟩⟩
    | some u =>
      rw [hv] at hbusy
      simp [hbusy, hv]
  | none =>
    cases hv : d.mru.reverse.find? fun b =>
        decide ((d.buf b).busy = none ∧ (d.buf b).dirty = false) with
    | some b =>
      simp only [Option.map_none, Option.map_some]
      exact ⟨_, rfl, h.modify ⟨.inr ⟨rfl, rfl⟩, rfl, rfl, rfl⟩⟩
    | none => simp

theorem bget_sim_first : ∃ c', Bcache.binit.bget ROOTDEV 5 = .ok (some 0, c') := by
  obtain ⟨c', hc, -⟩ := bget_sim binit_abs 1 5
  exact ⟨c', hc⟩

end Bcache.Abs

end Xv6.Bio
