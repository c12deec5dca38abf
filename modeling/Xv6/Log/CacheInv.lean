import Xv6.Log.Model

/-!
# What the cache holds

`CacheInv` relates the cache to the disk and to the contents `mem` that the
operations have logged.  A buffer is DIRTY exactly for the blocks in `pend`, those
that the log still has to install; it then has the logged contents, and a clean
buffer has those of the disk.  Buffers in `mod` are exempt: a process has changed
their data and has not yet come to the end of `log_write`.
-/

namespace Xv6.Log

structure CacheInv (c : Bcache) (d mem : Disk) (pend : List Nat) (mod : BufId → Prop) : Prop where
  wf : c.WF
  dirty_pend : ∀ i, (c.buf i).dirty = true → ∃ b ∈ pend, (c.buf i).blockno = some b
  pend_dirty : ∀ b ∈ pend, ∃ i, (c.buf i).blockno = some b ∧ (c.buf i).dirty = true
  clean : ∀ i b, (c.buf i).blockno = some b → (c.buf i).dirty = false → ¬ mod i →
    (c.buf i).data = d b
  logged : ∀ i b, (c.buf i).blockno = some b → (c.buf i).dirty = true → ¬ mod i →
    (c.buf i).data = mem b

namespace CacheInv

variable {c c' : Bcache} {d mem : Disk} {pend : List Nat} {mod : BufId → Prop} {t : Slot}
  {i : BufId} {b : Nat}

theorem init (d mem : Disk) (mod : BufId → Prop) : CacheInv .init d mem [] mod where
  wf := ⟨fun _ _ _ h => (by cases h), fun _ _ h => (by cases h), fun i => (by simp [Bcache.init])⟩
  dirty_pend _ h := by cases h
  pend_dirty _ h := by cases h
  clean _ _ h := by cases h
  logged _ _ h := by cases h

section
variable (h : CacheInv c d mem pend mod)
include h

/-- The buffer of a block that is to be installed is dirty, any other is not. -/
theorem dirty_iff (hb : (c.buf i).blockno = some b) : (c.buf i).dirty = true ↔ b ∈ pend := by
  constructor
  · intro hd
    obtain ⟨b', hb', he⟩ := h.dirty_pend i hd
    rw [hb] at he
    obtain rfl := Option.some.inj he
    exact hb'
  · intro hp
    obtain ⟨j, hj, hd⟩ := h.pend_dirty b hp
    rw [h.wf.uniq i j b hb hj]
    exact hd

theorem data_of_pend (hb : (c.buf i).blockno = some b)
    (hp : b ∈ pend) (hm : ¬ mod i) : (c.buf i).data = mem b :=
  h.logged i b hb ((h.dirty_iff hb).2 hp) hm

theorem data_of_notMem (hb : (c.buf i).blockno = some b)
    (hp : b ∉ pend) (hm : ¬ mod i) : (c.buf i).data = d b :=
  h.clean i b hb (by simpa using mt (h.dirty_iff hb).1 hp) hm

/-- Every buffer change keeps what it has to keep if this buffer does. -/
theorem modify {f : Buf → Buf} {d' mem' : Disk} {pend' : List Nat}
    {mod' : BufId → Prop} (hb : (c.buf i).blockno = some b)
    (hfb : (f (c.buf i)).blockno = some b)
    (hv : (f (c.buf i)).valid = (c.buf i).valid ∨ (f (c.buf i)).valid = true)
    (hp : ∀ x, x ≠ b → (x ∈ pend' ↔ x ∈ pend)) (hd : ∀ x, x ≠ b → d' x = d x)
    (hm : ∀ x, x ≠ b → mem' x = mem x) (hmod : ∀ j, j ≠ i → mod j → mod' j)
    (hdirty : (f (c.buf i)).dirty = true ↔ b ∈ pend')
    (hclean : (f (c.buf i)).dirty = false → ¬ mod' i → (f (c.buf i)).data = d' b)
    (hlogged : (f (c.buf i)).dirty = true → ¬ mod' i → (f (c.buf i)).data = mem' b) :
    CacheInv (c.modify i f) d' mem' pend' mod' := by
  have other : ∀ j x, j ≠ i → (c.buf j).blockno = some x → x ≠ b := by
    rintro j x hj hx rfl
    exact hj (h.wf.uniq j i x hx hb)
  refine ⟨h.wf.modify (by rw [hfb, hb]) hv, fun j hj => ?_, fun x hx => ?_,
    fun j x hjx hj hmj => ?_, fun j x hjx hj hmj => ?_⟩
  · by_cases he : j = i
    · subst he
      rw [Bcache.modify_buf_self] at hj ⊢
      exact ⟨b, hdirty.1 hj, hfb⟩
    · rw [Bcache.modify_buf_of_ne f he] at hj ⊢
      obtain ⟨x, hx, hjx⟩ := h.dirty_pend j hj
      exact ⟨x, (hp x (other j x he hjx)).2 hx, hjx⟩
  · by_cases he : x = b
    · subst he
      exact ⟨i, by rw [Bcache.modify_buf_self, hfb], by rw [Bcache.modify_buf_self, hdirty.2 hx]⟩
    · obtain ⟨j, hjx, hj⟩ := h.pend_dirty x ((hp x he).1 hx)
      have hji : j ≠ i := by
        rintro rfl
        rw [hb] at hjx
        exact he (Option.some.inj hjx).symm
      rw [← Bcache.modify_buf_of_ne f hji] at hjx hj
      exact ⟨j, hjx, hj⟩
  · by_cases he : j = i
    · subst he
      rw [Bcache.modify_buf_self] at hjx hj ⊢
      rw [hfb] at hjx
      obtain rfl := Option.some.inj hjx
      exact hclean hj hmj
    · rw [Bcache.modify_buf_of_ne f he] at hjx hj ⊢
      rw [hd x (other j x he hjx)]
      exact h.clean j x hjx hj (mt (hmod j he) hmj)
  · by_cases he : j = i
    · subst he
      rw [Bcache.modify_buf_self] at hjx hj ⊢
      rw [hfb] at hjx
      obtain rfl := Option.some.inj hjx
      exact hlogged hj hmj
    · rw [Bcache.modify_buf_of_ne f he] at hjx hj ⊢
      rw [hm x (other j x he hjx)]
      exact h.logged j x hjx hj (mt (hmod j he) hmj)

theorem mono {mod' : BufId → Prop} (hm : ∀ i, mod i → mod' i) : CacheInv c d mem pend mod' :=
  ⟨h.wf, h.dirty_pend, h.pend_dirty, fun i b hb hd hi => h.clean i b hb hd (mt (hm i) hi),
    fun i b hb hd hi => h.logged i b hb hd (mt (hm i) hi)⟩

/-- Only who holds the buffer changes. -/
theorem setBusy (o : Option Slot) :
    CacheInv (c.modify i fun u => { u with busy := o }) d mem pend mod := by
  have same : ∀ j, ((c.modify i fun u => { u with busy := o }).buf j).blockno = (c.buf j).blockno ∧
      ((c.modify i fun u => { u with busy := o }).buf j).dirty = (c.buf j).dirty ∧
      ((c.modify i fun u => { u with busy := o }).buf j).data = (c.buf j).data := by
    intro j
    by_cases he : j = i
    · subst he
      simp
    · rw [Bcache.modify_buf_of_ne _ he]
      exact ⟨rfl, rfl, rfl⟩
  refine ⟨h.wf.modify rfl (.inl rfl), fun j hj => ?_, fun b hb => ?_, fun j b hb hj hm => ?_,
    fun j b hb hj hm => ?_⟩
  · rw [(same j).2.1] at hj
    rw [(same j).1]
    exact h.dirty_pend j hj
  · obtain ⟨j, hj, hd⟩ := h.pend_dirty b hb
    exact ⟨j, by rw [(same j).1, hj], by rw [(same j).2.1, hd]⟩
  · rw [(same j).1] at hb
    rw [(same j).2.1] at hj
    rw [(same j).2.2]
    exact h.clean j b hb hj hm
  · rw [(same j).1] at hb
    rw [(same j).2.1] at hj
    rw [(same j).2.2]
    exact h.logged j b hb hj hm

/-- A clean buffer takes the contents of a block that is not cached. -/
theorem recycle (hb : ∀ j, (c.buf j).blockno ≠ some b) (hd : (c.buf i).dirty = false) :
    CacheInv (c.modify i fun u =>
      { u with blockno := some b, busy := some t, valid := true, dirty := false, data := d b })
      d mem pend mod := by
  have clean : ∀ x, (c.buf i).blockno = some x → x ∉ pend := by
    intro x hx hp
    rw [(h.dirty_iff hx).2 hp] at hd
    cases hd
  refine ⟨⟨fun j k x hj hk => ?_, fun j x hj => ?_, h.wf.mem⟩, fun j hj => ?_, fun x hx => ?_,
    fun j x hx hj hm => ?_, fun j x hx hj hm => ?_⟩
  · by_cases hji : j = i <;> by_cases hki : k = i
    · rw [hji, hki]
    · subst hji
      rw [Bcache.modify_buf_self] at hj
      rw [Bcache.modify_buf_of_ne _ hki, ← hj] at hk
      exact absurd hk (hb k)
    · subst hki
      rw [Bcache.modify_buf_self] at hk
      rw [Bcache.modify_buf_of_ne _ hji, ← hk] at hj
      exact absurd hj (hb j)
    · rw [Bcache.modify_buf_of_ne _ hji] at hj
      rw [Bcache.modify_buf_of_ne _ hki] at hk
      exact h.wf.uniq j k x hj hk
  · by_cases hji : j = i
    · subst hji
      rw [Bcache.modify_buf_self]
    · rw [Bcache.modify_buf_of_ne _ hji] at hj ⊢
      exact h.wf.valid j x hj
  · by_cases hji : j = i
    · subst hji
      rw [Bcache.modify_buf_self] at hj
      cases hj
    · rw [Bcache.modify_buf_of_ne _ hji] at hj ⊢
      exact h.dirty_pend j hj
  · obtain ⟨j, hj, hjd⟩ := h.pend_dirty x hx
    have hji : j ≠ i := by
      rintro rfl
      exact clean x hj hx
    exact ⟨j, by rw [Bcache.modify_buf_of_ne _ hji, hj], by rw [Bcache.modify_buf_of_ne _ hji, hjd]⟩
  · by_cases hji : j = i
    · subst hji
      rw [Bcache.modify_buf_self] at hx ⊢
      rw [← Option.some.inj hx]
    · rw [Bcache.modify_buf_of_ne _ hji] at hx hj ⊢
      exact h.clean j x hx hj hm
  · by_cases hji : j = i
    · subst hji
      rw [Bcache.modify_buf_self] at hj
      cases hj
    · rw [Bcache.modify_buf_of_ne _ hji] at hx hj ⊢
      exact h.logged j x hx hj hm

theorem bread (hc : c.bread d t b = .ok (i, c')) :
    CacheInv c' d mem pend mod ∧ (c'.buf i).blockno = some b ∧ (c'.buf i).busy = some t ∧
      ∀ j, (c.buf j).busy ≠ none → c'.buf j = c.buf j := by
  have keep : ∀ f : Buf → Buf, (c.buf i).busy = none →
      ∀ j, (c.buf j).busy ≠ none → (c.modify i f).buf j = c.buf j := by
    intro f hi j hj
    exact Bcache.modify_buf_of_ne f (fun he => hj (he ▸ hi))
  rcases Bcache.bread_cases h.wf hc with ⟨hb, hbusy, rfl⟩ | ⟨hb, hbusy, hd, rfl⟩
  · exact ⟨h.setBusy _, by rw [Bcache.modify_buf_self, hb], by rw [Bcache.modify_buf_self],
      keep _ hbusy⟩
  · exact ⟨h.recycle hb hd, by rw [Bcache.modify_buf_self], by rw [Bcache.modify_buf_self],
      keep _ hbusy⟩

theorem brelse (hc : c.brelse i = .ok c') :
    CacheInv c' d mem pend mod ∧ (∀ j, j ≠ i → c'.buf j = c.buf j) ∧
      (c'.buf i).busy = none := by
  unfold Bcache.brelse at hc
  split at hc
  · cases hc
  · obtain rfl := Except.ok.inj hc
    have hi := h.setBusy (i := i) none
    refine ⟨⟨⟨hi.wf.uniq, hi.wf.valid, fun j => ?_⟩, hi.dirty_pend, hi.pend_dirty, hi.clean,
      hi.logged⟩,
      fun j hj => Bcache.modify_buf_of_ne (c := c) (fun u => { u with busy := none }) hj, ?_⟩
    · by_cases hj : j = i
      · exact List.mem_cons.2 (.inl hj)
      · exact List.mem_cons_of_mem _ ((List.mem_erase_of_ne hj).2 (h.wf.mem j))
    · exact congrArg Buf.busy (Bcache.modify_buf_self (c := c) fun u => { u with busy := none })

/-- The contents of a buffer are replaced and written to the disk. -/
theorem bwrite {v : Block} {d' : Disk} {pend' : List Nat}
    (hb : (c.buf i).blockno = some b) (hp : ∀ x, x ∈ pend' ↔ x ∈ pend ∧ x ≠ b)
    (hc : (c.modify i fun u => { u with data := v }).bwrite d i = .ok (d', c')) :
    CacheInv c' d' mem pend' mod ∧ d' = Function.update d b v ∧ (∀ j, j ≠ i → c'.buf j = c.buf j) ∧
      (c'.buf i).blockno = some b ∧ (c'.buf i).busy = (c.buf i).busy := by
  obtain ⟨b', hb', rfl, rfl⟩ := Bcache.bwrite_cases hc
  rw [Bcache.modify_buf_self] at hb' ⊢
  dsimp only at hb' ⊢
  obtain rfl : b = b' := Option.some.inj (hb.symm.trans hb')
  have he : ((c.modify i fun u => { u with data := v }).modify i
      fun u => { u with valid := true, dirty := false }) =
      c.modify i fun u => { u with data := v, valid := true, dirty := false } := by
    simp [Bcache.modify]
  rw [he]
  refine ⟨h.modify hb hb (.inr rfl) (fun x hx => ?_) (fun x hx => Function.update_of_ne hx ..)
    (fun _ _ => rfl) (fun _ _ => id) ?_ (fun _ _ => ?_) (fun hd => by cases hd), rfl,
    fun j hj => Bcache.modify_buf_of_ne _ hj, ?_, ?_⟩
  · rw [hp]
    exact and_iff_left hx
  · rw [hp]
    simp
  · exact (Function.update_self b v d).symm
  · rw [Bcache.modify_buf_self]
    exact hb
  · rw [Bcache.modify_buf_self]

/-- The logged blocks are in as many buffers; one more is needed for any other block. -/
theorem length_lt (hn : pend.Nodup)
    (hb : (c.buf i).blockno = some b) (hp : b ∉ pend) : pend.length < NBUF := by
  choose! f hf using h.pend_dirty
  have hinj : (pend.map f).Nodup := by
    refine hn.map_on fun x hx y hy he => ?_
    have h1 := (hf x hx).1
    rw [he, (hf y hy).1] at h1
    exact (Option.some.inj h1).symm
  have hi : i ∉ pend.map f := by
    intro hi
    obtain ⟨x, hx, rfl⟩ := List.mem_map.1 hi
    have h1 := (hf x hx).1
    rw [hb] at h1
    exact hp (Option.some.inj h1 ▸ hx)
  have := (List.nodup_cons.2 ⟨hi, hinj⟩).length_le_card
  rw [List.length_cons, List.length_map, Fintype.card_fin] at this
  exact this

end

end CacheInv

end Xv6.Log
