import Xv6.Bio.Model
import Xv6.Lib.Post

/-!
# The buffer cache over runs

The links form one cycle through the head node with every buffer on it once, so the scans of
`bget` see every buffer; hence no block is cached twice.  A buffer that a process holds is BUSY,
and `bget` hands out buffers that are not.
-/

namespace Xv6.Bio

open Function List
open Log (NBUF BufId)

/-- Following `next` from the head one meets the buffers of `l` and then the head again, and
`prev` leads back. -/
def Bcache.Cycle (c : Bcache) (l : List BufId) : Prop :=
  Dlist c.next c.prev none (l.map some) none

/-- One cycle through the head that has every buffer once. -/
def Bcache.OneCycle (c : Bcache) : Prop :=
  ∃ l : List BufId, c.Cycle l ∧ l.Nodup ∧ ∀ b, b ∈ l

variable {f : Buf → Buf}

namespace Bcache

variable {c c' : Bcache} {l : List BufId} {b : BufId}

theorem Cycle.pushFront (h : c.Cycle l) (hb : b ∉ l) : (c.pushFront b).Cycle (b :: l) :=
  Dlist.insert h (by simpa using hb) (by simp) (by simp) (by simp)

theorem Cycle.unlink {l₁ l₂ : List BufId} (h : c.Cycle (l₁ ++ b :: l₂)) (h₁ : b ∉ l₁)
    (h₂ : b ∉ l₂) : (c.unlink b).Cycle (l₁ ++ l₂) := by
  unfold Cycle at h ⊢
  rw [map_append, map_cons] at h
  rw [map_append]
  exact h.unlink (by simp) (by simp) (by simpa using h₁) (by simpa using h₂)

/-- The buffer goes to the front. -/
theorem OneCycle.moveFront (h : c.OneCycle) (b : BufId) : ((c.unlink b).pushFront b).OneCycle := by
  obtain ⟨l, hc, hnd, hall⟩ := h
  obtain ⟨l₁, l₂, rfl, h₁⟩ := eq_append_cons_of_mem (hall b)
  have h₂ : b ∉ l₂ := (nodup_cons.1 (nodup_append.1 hnd).2.1).1
  have hb : b ∉ l₁ ++ l₂ := by simp [h₁, h₂]
  refine ⟨b :: (l₁ ++ l₂), (hc.unlink h₁ h₂).pushFront hb, ?_, fun x => ?_⟩
  · exact (perm_middle.nodup_iff).1 hnd
  · exact perm_middle.mem_iff.1 (hall x)

theorem binit_cycle : binit.Cycle (List.finRange NBUF).reverse := by
  have hfold : ∀ (m l : List BufId) (c : Bcache), c.Cycle l → (m ++ l).Nodup →
      (m.foldl (fun c b => (c.pushFront b).modify b fun u => { u with dev := NODEV }) c).Cycle
        (m.reverse ++ l) := by
    intro m
    induction m with
    | nil => exact fun l c hc _ => hc
    | cons b m ih =>
      intro l c hc hnd
      rw [cons_append, nodup_cons] at hnd
      have hb : b ∉ l := fun h => hnd.1 (mem_append_right m h)
      have hnext : (m ++ b :: l).Nodup := nodup_middle.2 (nodup_cons.2 hnd)
      rw [reverse_cons, append_assoc]
      exact ih (b :: l) _ (hc.pushFront hb) hnext
  have := hfold (List.finRange NBUF) [] ⟨fun _ => {}, fun _ => none, fun _ => none⟩
    (.nil ⟨rfl, rfl⟩) (by simpa using nodup_finRange NBUF)
  rwa [append_nil] at this

theorem binit_oneCycle : binit.OneCycle :=
  ⟨_, binit_cycle, nodup_reverse.2 (nodup_finRange NBUF), by simp⟩

theorem find?_test (c : Bcache) (f : Buf → Bool) (l : List BufId) :
    (l.map some).find? (c.test f) = (l.find? fun b => f (c.buf b)).map some := by
  rw [find?_map]
  rfl

/-- The scans come back to the head after all buffers. -/
theorem Cycle.seek_next (h : c.Cycle l) (hnd : l.Nodup) (f : Buf → Bool) :
    seek c.next none (c.test f) (NBUF + 1) (c.next none) =
      some ((l.find? fun b => f (c.buf b)).map some) := by
  have hlen : (l.map some).length < NBUF + 1 := by
    have := hnd.length_le_card
    rw [Fintype.card_fin] at this
    rw [length_map]
    omega
  rw [Dlist.seek_eq h (by simp) _ hlen, find?_test]

theorem Cycle.seek_prev (h : c.Cycle l) (hnd : l.Nodup) (f : Buf → Bool) :
    seek c.prev none (c.test f) (NBUF + 1) (c.prev none) =
      some ((l.reverse.find? fun b => f (c.buf b)).map some) := by
  have hrev : Cycle ⟨c.buf, c.prev, c.next⟩ l.reverse := by
    have := Dlist.reverse h
    rwa [← map_reverse] at this
  exact hrev.seek_next (nodup_reverse.2 hnd) f

/-- What `bget` does: the buffer that caches the block, or a sleep while that is BUSY, or a
buffer that is neither BUSY nor DIRTY when nothing caches the block. -/
theorem bget_cases (h : c.OneCycle) (dev blockno : BitVec 32) :
    (∃ b, (c.buf b).dev = dev ∧ (c.buf b).blockno = blockno ∧
      ((c.buf b).busy = true ∧ c.bget dev blockno = .ok (none, c) ∨
      (c.buf b).busy = false ∧
        c.bget dev blockno = .ok (some b, c.modify b fun u => { u with busy := true }))) ∨
    ((∀ b, ¬ ((c.buf b).dev = dev ∧ (c.buf b).blockno = blockno)) ∧
      ((∃ b, (c.buf b).busy = false ∧ (c.buf b).dirty = false ∧
        c.bget dev blockno = .ok (some b, c.modify b fun _ =>
          { dev := dev, blockno := blockno, busy := true, valid := false, dirty := false })) ∨
      (∀ b, (c.buf b).busy = true ∨ (c.buf b).dirty = true) ∧
        c.bget dev blockno = .error .noBuffers)) := by
  obtain ⟨l, hc, hnd, hall⟩ := h
  unfold bget
  rw [hc.seek_next hnd, hc.seek_prev hnd]
  cases hf : l.find? fun b => caches dev blockno (c.buf b) with
  | some b =>
    have hb : (c.buf b).dev = dev ∧ (c.buf b).blockno = blockno := by
      simpa [caches] using find?_some hf
    refine .inl ⟨b, hb.1, hb.2, ?_⟩
    cases hbusy : (c.buf b).busy with
    | true => exact .inl ⟨rfl, by simp [hbusy]⟩
    | false => exact .inr ⟨rfl, by simp [hbusy]⟩
  | none =>
    refine .inr ⟨fun b hb => ?_, ?_⟩
    · have := find?_eq_none.1 hf b (hall b)
      simp [caches, hb] at this
    · cases hr : l.reverse.find? fun b => clean (c.buf b) with
      | some b =>
        have hb : (c.buf b).busy = false ∧ (c.buf b).dirty = false := by
          simpa [clean] using find?_some hr
        exact .inl ⟨b, hb.1, hb.2, rfl⟩
      | none =>
        refine .inr ⟨fun b => ?_, rfl⟩
        have := find?_eq_none.1 hr b (mem_reverse.2 (hall b))
        simp only [clean, Bool.decide_and, Bool.and_eq_true, decide_eq_true_eq, not_and] at this
        cases hbusy : (c.buf b).busy with
        | true => exact .inl rfl
        | false => exact .inr (by simpa using this hbusy)

theorem modify_buf_self (f : Buf → Buf) : (c.modify b f).buf b = f (c.buf b) :=
  update_self ..

theorem modify_buf_of_ne (f : Buf → Buf) {x : BufId} (h : x ≠ b) :
    (c.modify b f).buf x = c.buf x :=
  update_of_ne h ..

/-- The block that a buffer caches. -/
def key (c : Bcache) (b : BufId) : BitVec 32 × BitVec 32 := ((c.buf b).dev, (c.buf b).blockno)

/-- No two buffers cache one block of a device. -/
def Unique (c : Bcache) : Prop := ∀ i j, (c.key i).1 ≠ NODEV → c.key i = c.key j → i = j

theorem Unique.congr (h : c.Unique) (hkey : c'.key = c.key) : c'.Unique := by
  unfold Unique
  rw [hkey]
  exact h

theorem key_modify_self (f : Buf → Buf) :
    (c.modify b f).key b = ((f (c.buf b)).dev, (f (c.buf b)).blockno) := by
  rw [key, modify_buf_self]

theorem key_modify_of_ne (f : Buf → Buf) {x : BufId} (h : x ≠ b) :
    (c.modify b f).key x = c.key x := by
  rw [key, modify_buf_of_ne f h, key]

/-- A buffer takes a block that nothing caches. -/
theorem Unique.recycle (h : c.Unique)
    (hnone : ∀ i, c.key i ≠ ((f (c.buf b)).dev, (f (c.buf b)).blockno)) : (c.modify b f).Unique := by
  intro i j hi hij
  by_cases hib : i = b
  · subst hib
    by_contra hji
    rw [key_modify_self, key_modify_of_ne f (Ne.symm hji)] at hij
    exact hnone j hij.symm
  · rw [key_modify_of_ne f hib] at hi hij
    by_cases hjb : j = b
    · subst hjb
      rw [key_modify_self] at hij
      exact absurd hij (hnone i)
    · rw [key_modify_of_ne f hjb] at hij
      exact h i j hi hij

theorem key_modify (hf : ∀ u, (f u).dev = u.dev ∧ (f u).blockno = u.blockno) :
    (c.modify b f).key = c.key := by
  funext x
  by_cases hx : x = b
  · subst hx
    rw [key_modify_self, (hf _).1, (hf _).2, key]
  · exact key_modify_of_ne f hx

end Bcache

/-! ## The invariant -/

structure Inv (s : State) : Prop where
  cycle : s.cache.OneCycle
  uniq : s.cache.Unique
  busy : ∀ p b, b ∈ s.held p → (s.cache.buf b).busy = true
  nodup : ∀ p, (s.held p).Nodup
  excl : ∀ p q b, b ∈ s.held p → b ∈ s.held q → p = q
  disk : ∀ p b, s.pc p = .disk b → b ∈ s.held p

/-- A step keeps the block of every buffer that is DIRTY. -/
def KeepsDirty (c c' : Bcache) : Prop := ∀ b, (c.buf b).dirty = true → c'.key b = c.key b

variable {s s' : State} {p : Nat} {b : BufId} {c : Bcache}

/-- The flags of one buffer change, other than `B_BUSY`. -/
theorem Inv.flags (h : Inv s)
    (hf : ∀ u, (f u).dev = u.dev ∧ (f u).blockno = u.blockno) (hb : ∀ u, (f u).busy = u.busy) :
    Inv { s with cache := s.cache.modify b f } ∧ KeepsDirty s.cache (s.cache.modify b f) := by
  have hkey : (s.cache.modify b f).key = s.cache.key := Bcache.key_modify hf
  refine ⟨⟨h.cycle, h.uniq.congr hkey, fun q x hx => ?_, h.nodup, h.excl, h.disk⟩,
    fun x _ => congrFun hkey x⟩
  show ((s.cache.modify b f).buf x).busy = true
  by_cases hxb : x = b
  · subst hxb
    rw [Bcache.modify_buf_self, hb]
    exact h.busy q x hx
  · rw [Bcache.modify_buf_of_ne f hxb]
    exact h.busy q x hx

theorem Inv.setPc (h : Inv s) {pc : Pc} (hpc : ∀ b, pc = .disk b → b ∈ s.held p) :
    Inv (s.setPc p pc) := by
  refine ⟨h.cycle, h.uniq, h.busy, h.nodup, h.excl, fun q x hx => ?_⟩
  have hx : update s.pc p pc q = .disk x := hx
  by_cases hq : q = p
  · subst hq
    rw [update_self] at hx
    exact hpc x hx
  · rw [update_of_ne hq] at hx
    exact h.disk q x hx

/-- A process is given a buffer that was not BUSY. -/
theorem Inv.give (h : Inv s) (hfree : (s.cache.buf b).busy = false)
    (hbusy : (f (s.cache.buf b)).busy = true)
    (huniq : (s.cache.modify b f).Unique) :
    Inv { s with
      cache := s.cache.modify b f, held := update s.held p (b :: s.held p) } := by
  have hnone : ∀ q, b ∉ s.held q := by
    intro q hq
    rw [h.busy q b hq] at hfree
    cases hfree
  have hmem : ∀ q x, x ∈ update s.held p (b :: s.held p) q →
      (q = p ∧ x = b) ∨ (x ≠ b ∧ x ∈ s.held q) := by
    intro q x hx
    by_cases hq : q = p
    · subst hq
      rw [update_self, mem_cons] at hx
      rcases hx with rfl | hx
      · exact .inl ⟨rfl, rfl⟩
      · exact .inr ⟨ne_of_mem_of_not_mem hx (hnone q), hx⟩
    · rw [update_of_ne hq] at hx
      exact .inr ⟨ne_of_mem_of_not_mem hx (hnone q), hx⟩
  refine ⟨h.cycle, huniq, fun q x hx => ?_, fun q => ?_, fun q r x hq hr => ?_, fun q x hx => ?_⟩
  · show ((s.cache.modify b f).buf x).busy = true
    rcases hmem q x hx with ⟨-, rfl⟩ | ⟨hxb, hx⟩
    · rw [Bcache.modify_buf_self, hbusy]
    · rw [Bcache.modify_buf_of_ne f hxb]
      exact h.busy q x hx
  · by_cases hq : q = p
    · subst hq
      show (update s.held q (b :: s.held q) q).Nodup
      rw [update_self]
      exact nodup_cons.2 ⟨hnone q, h.nodup q⟩
    · show (update s.held p (b :: s.held p) q).Nodup
      rw [update_of_ne hq]
      exact h.nodup q
  · rcases hmem q x hq with ⟨rfl, rfl⟩ | ⟨hxb, hq⟩
    · rcases hmem r x hr with ⟨rfl, -⟩ | ⟨hxb, -⟩
      · rfl
      · exact absurd rfl hxb
    · rcases hmem r x hr with ⟨-, rfl⟩ | ⟨-, hr⟩
      · exact absurd rfl hxb
      · exact h.excl q r x hq hr
  · have hm := h.disk q x hx
    show x ∈ update s.held p (b :: s.held p) q
    by_cases hq : q = p
    · subst hq
      rw [update_self]
      exact mem_cons_of_mem b hm
    · rwa [update_of_ne hq]

theorem bread_inv (h : Inv s) {dev blockno : BitVec 32} (hs : s.bread p dev blockno = .ok s') :
    Inv s' ∧ KeepsDirty s.cache s'.cache := by
  have hgive : ∀ (b : BufId) (c : Bcache), s.cache.bget dev blockno = .ok (some b, c) →
      Inv { s with cache := c, held := update s.held p (b :: s.held p) } →
      KeepsDirty s.cache c → Inv s' ∧ KeepsDirty s.cache s'.cache := by
    intro b c hc hi hk
    rw [State.bread, hc] at hs
    cases hs
    refine ⟨hi.setPc fun x hx => ?_, hk⟩
    show x ∈ update s.held p (b :: s.held p) p
    rw [update_self]
    split at hx
    · cases hx
    · cases hx
      exact mem_cons_self
  rcases Bcache.bget_cases h.cycle dev blockno with
    ⟨b, -, -, ⟨-, hb⟩ | ⟨hfree, hb⟩⟩ | ⟨hnone, ⟨b, hfree, hclean, hb⟩ | ⟨-, hb⟩⟩
  · rw [State.bread, hb] at hs
    cases hs
    exact ⟨h.setPc nofun, fun _ _ => rfl⟩
  · have hkey : (s.cache.modify b fun u => { u with busy := true }).key = s.cache.key :=
      Bcache.key_modify fun _ => ⟨rfl, rfl⟩
    exact hgive b _ hb (h.give hfree rfl (h.uniq.congr hkey)) fun x _ => congrFun hkey x
  · refine hgive b _ hb (h.give hfree rfl (h.uniq.recycle fun i hi => ?_)) fun x hx => ?_
    · exact hnone i ⟨congrArg Prod.fst hi, congrArg Prod.snd hi⟩
    · have hxb : x ≠ b := by
        rintro rfl
        rw [hclean] at hx
        cases hx
      exact Bcache.key_modify_of_ne _ hxb
  · rw [State.bread, hb] at hs
    cases hs

/-- A process gives back a buffer. -/
theorem brelse_inv (h : Inv s) (hidle : s.pc p = .idle) (hb : b ∈ s.held p)
    (hc : s.cache.brelse b = .ok c) :
    Inv { s with cache := c, held := update s.held p ((s.held p).erase b) } ∧
      KeepsDirty s.cache c := by
  rw [Bcache.brelse, h.busy p b hb, if_neg nofun] at hc
  cases hc
  have hkey : (((s.cache.unlink b).pushFront b).modify b fun u => { u with busy := false }).key =
      s.cache.key := Bcache.key_modify (c := (s.cache.unlink b).pushFront b) fun _ => ⟨rfl, rfl⟩
  have hmem : ∀ q x, x ∈ update s.held p ((s.held p).erase b) q →
      x ≠ b ∧ x ∈ s.held q := by
    intro q x hx
    by_cases hq : q = p
    · subst hq
      rw [update_self, (h.nodup q).mem_erase_iff] at hx
      exact hx
    · rw [update_of_ne hq] at hx
      refine ⟨?_, hx⟩
      rintro rfl
      exact hq (h.excl q p x hx hb)
  refine ⟨⟨h.cycle.moveFront b, h.uniq.congr hkey, fun q x hx => ?_, fun q => ?_,
    fun q r x hq hr => h.excl q r x (hmem q x hq).2 (hmem r x hr).2, fun q x hx => ?_⟩,
    fun x _ => congrFun hkey x⟩
  · obtain ⟨hxb, hx⟩ := hmem q x hx
    have hbuf := Bcache.modify_buf_of_ne (c := (s.cache.unlink b).pushFront b)
      (fun u => { u with busy := false }) hxb
    exact (congrArg Buf.busy hbuf).trans (h.busy q x hx)
  · show (update s.held p ((s.held p).erase b) q).Nodup
    by_cases hq : q = p
    · subst hq
      rw [update_self]
      exact (h.nodup q).erase b
    · rw [update_of_ne hq]
      exact h.nodup q
  · show x ∈ update s.held p ((s.held p).erase b) q
    have hq : q ≠ p := by
      rintro rfl
      cases hidle.symm.trans hx
    rw [update_of_ne hq]
    exact h.disk q x hx

theorem step_inv {a : Act} (h : Inv s) (hs : Step s a s') :
    Inv s' ∧ KeepsDirty s.cache s'.cache := by
  cases hs with
  | bread _ hr => exact bread_inv h hr
  | resume _ hr => exact bread_inv h hr
  | diskDone hpc =>
    obtain ⟨hi, hk⟩ := h.flags (b := _) (f := fun u => { u with valid := true, dirty := false })
      (fun _ => ⟨rfl, rfl⟩) fun _ => rfl
    exact ⟨hi.setPc nofun, hk⟩
  | bwrite _ hb hc =>
    rw [Bcache.bwrite, h.busy _ _ hb, if_neg nofun] at hc
    cases hc
    obtain ⟨hi, hk⟩ := h.flags (b := _) (f := fun u => { u with dirty := true })
      (fun _ => ⟨rfl, rfl⟩) fun _ => rfl
    refine ⟨hi.setPc fun x hx => ?_, hk⟩
    cases hx
    exact hb
  | logWrite _ hb => exact h.flags (fun _ => ⟨rfl, rfl⟩) fun _ => rfl
  | brelse hidle hb hc => exact brelse_inv h hidle hb hc

theorem binit_buf (b : BufId) : Bcache.binit.buf b = { dev := NODEV } := by
  have hfold : ∀ (m : List BufId) (c : Bcache),
      b ∈ m ∧ c.buf b = {} ∨ c.buf b = { dev := NODEV } →
      (m.foldl (fun c b => (c.pushFront b).modify b fun u => { u with dev := NODEV }) c).buf b =
        { dev := NODEV } := by
    intro m
    induction m with
    | nil => exact fun c hc => hc.resolve_left fun h => not_mem_nil h.1
    | cons x m ih =>
      intro c hc
      apply ih
      by_cases hx : b = x
      · subst hx
        right
        rw [Bcache.modify_buf_self]
        show { c.buf b with dev := NODEV } = _
        rcases hc with ⟨-, hc⟩ | hc <;> rw [hc]
      · rw [Bcache.modify_buf_of_ne _ hx]
        exact hc.imp_left fun hm => ⟨(mem_cons.1 hm.1).resolve_left hx, hm.2⟩
  exact hfold _ _ (.inl ⟨mem_finRange b, rfl⟩)

theorem reach_inv (h : machine.Reach s) : Inv s := by
  refine System.Reach.invariant (P := Inv) ?_ (fun s a s' _ hi hs => (step_inv hi hs).1) h
  rintro s ⟨hc, hpc, hh⟩
  have hnone : ∀ p b, b ∉ s.held p := fun p b hb => by simp [hh p] at hb
  refine ⟨hc ▸ Bcache.binit_oneCycle, fun i j hi _ => ?_, fun p b hb => absurd hb (hnone p b),
    fun p => ?_, fun p q b hb => absurd hb (hnone p b), fun p b hb => ?_⟩
  · rw [hc, Bcache.key, binit_buf] at hi
    exact absurd rfl hi
  · rw [hh p]
    exact nodup_nil
  · cases (hpc p).symm.trans hb

/-- In every interleaving of any number of processes: the links form one cycle through the head
with every buffer on it once; no two buffers cache one block of a device; a buffer that a process
holds is BUSY and no other process holds it, nor any buffer of the same block; and no step gives
a DIRTY buffer to another block. -/
theorem bcache_sound (h : machine.Reach s) :
    s.cache.OneCycle ∧
    (∀ i j, (s.cache.buf i).dev ≠ NODEV → (s.cache.buf i).dev = (s.cache.buf j).dev →
      (s.cache.buf i).blockno = (s.cache.buf j).blockno → i = j) ∧
    (∀ p q i j, i ∈ s.held p → j ∈ s.held q → (s.cache.buf i).busy = true ∧
      (i = j ∨ (s.cache.buf i).dev ≠ NODEV ∧ (s.cache.buf i).dev = (s.cache.buf j).dev ∧
        (s.cache.buf i).blockno = (s.cache.buf j).blockno → p = q)) ∧
    ∀ a s', machine.step s a s' → ∀ i, (s.cache.buf i).dirty = true →
      (s'.cache.buf i).dev = (s.cache.buf i).dev ∧
      (s'.cache.buf i).blockno = (s.cache.buf i).blockno := by
  have hi := reach_inv h
  have huniq : ∀ i j, (s.cache.buf i).dev ≠ NODEV → (s.cache.buf i).dev = (s.cache.buf j).dev →
      (s.cache.buf i).blockno = (s.cache.buf j).blockno → i = j :=
    fun i j hd hdev hb => hi.uniq i j hd (Prod.ext hdev hb)
  refine ⟨hi.cycle, huniq, fun p q i j hp hq => ⟨hi.busy p i hp, fun hor => ?_⟩,
    fun a s' hs i hd => ?_⟩
  · have hij : i = j := hor.elim id fun ⟨hd, hdev, hb⟩ => huniq i j hd hdev hb
    exact hi.excl p q i hp (hij ▸ hq)
  · have := (step_inv hi hs).2 i hd
    exact ⟨congrArg Prod.fst this, congrArg Prod.snd this⟩

/-- A process reads block 5 of device 1 into the least recently used buffer. -/
theorem bcache_sound_read : ∃ s, machine.Reach s ∧ s.held 1 = [0] ∧ (s.cache.buf 0).blockno = 5 ∧
    s.cache.OneCycle := by
  let start : State := ⟨.binit, fun _ => .idle, fun _ => []⟩
  have hrun : (match start.bread 1 1 5 with
      | .ok s => decide (s.held 1 = [0] ∧ (s.cache.buf 0).blockno = 5)
      | .error _ => false) = true := by decide +kernel
  split at hrun
  next s hs =>
    have h0 : machine.Reach start := .init ⟨rfl, fun _ => rfl, fun _ => rfl⟩
    have hstep : machine.step start (.bread 1 1 5) s := Step.bread rfl hs
    have hr : machine.Reach s := .step h0 hstep
    obtain ⟨hh, hb⟩ := of_decide_eq_true hrun
    exact ⟨s, hr, hh, hb, (bcache_sound hr).1⟩
  next => cases hrun

end Xv6.Bio
