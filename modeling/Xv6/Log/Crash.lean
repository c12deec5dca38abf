import Xv6.Log.History

/-!
# Crash atomicity

After any crash, in any state, `recover_from_log` comes to its end and leaves the
home blocks as the committed operations made them.
-/

namespace Xv6.Log

open Function List

/-- The state after a list of actions. -/
def State.run (A : Area) (s : State) (acts : List Act) : Except Stop State :=
  acts.foldlM (State.exec A) s

/-! ## Recovery comes to its end -/

/-- The buffers that recovery holds at a point. -/
def Pt.held : Pt → List BufId
  | .readHeadGot i | .gotLog _ _ i | .headGot _ i | .headDone _ i => [i]
  | .gotBoth _ _ i j | .copied _ _ i j => [i, j]
  | _ => []

/-- How many steps are left at most. -/
def Pt.rank : Pt → Nat
  | .readHead => 4 * NBUF + 10
  | .readHeadGot _ => 4 * NBUF + 9
  | .top _ k => 4 * (NBUF - k) + 8
  | .gotLog _ k _ => 4 * (NBUF - k) + 7
  | .gotBoth _ k _ _ => 4 * (NBUF - k) + 6
  | .copied _ k _ _ => 4 * (NBUF - k) + 5
  | .head _ => 4
  | .headGot _ _ => 3
  | .headDone _ _ => 2
  | .finish => 1

namespace Bcache

variable {c c' : Bcache} {d : Disk} {t : Slot} {b : Nat} {i : BufId}

theorem bread_ok (hw : c.WF) (hb : ∀ j, (c.buf j).blockno = some b → (c.buf j).busy = none)
    (hv : ∃ j, (c.buf j).busy = none ∧ (c.buf j).dirty = false) :
    ∃ i c', c.bread d t b = .ok (i, c') := by
  obtain ⟨x, hx⟩ : ∃ x, c.bget t b = .ok x := by
    unfold bget
    cases hl : c.lookup b with
    | some i =>
      have hi : (c.buf i).blockno = some b := by simpa using find?_some hl
      exact ⟨_, if_pos (hb i hi)⟩
    | none =>
      cases hv' : c.victim with
      | some i => exact ⟨_, rfl⟩
      | none =>
        obtain ⟨j, hj⟩ := hv
        have := find?_eq_none.1 hv' j (mem_reverse.2 (hw.mem j))
        simp [hj] at this
  unfold bread
  rw [hx]
  dsimp only [bind, Except.bind]
  split <;> exact ⟨_, _, rfl⟩

theorem brelse_ok (h : (c.buf i).busy ≠ none) : ∃ c', c.brelse i = .ok c' :=
  ⟨_, if_neg h⟩

theorem bwrite_ok (h : (c.buf i).busy = some t) (hb : (c.buf i).blockno = some b) :
    ∃ x, c.bwrite d i = .ok x := by
  unfold bwrite
  rw [h, hb]
  exact ⟨_, rfl⟩

end Bcache

section
variable {A : Area} {s s' : State} {p p' : Pt} {dur : Disk} {b : Nat} {i : BufId}

/-- Process 0 recovers, and nobody else has a buffer. -/
structure Recovering (A : Area) (s : State) (p : Pt) (dur : Disk) : Prop where
  inv : Inv A s (some (0, p)) dur dur
  down : s.up = false
  free : ∀ j, (s.cache.buf j).busy ≠ none → j ∈ p.held

namespace Recovering

theorem pend (h : Recovering A s p dur) : p.pend s.up s.lh = [] := by
  have hp := h.inv.phase.1
  have hu := h.down
  cases p with
  | readHead | readHeadGot | finish => rfl
  | top dir | gotLog dir | gotBoth dir | copied dir =>
    cases dir with
    | toLog => exact absurd (hu.symm.trans hp.1.up) Bool.false_ne_true
    | toHome => simp [Pt.pend, loopPend, hu]
  | head e | headGot e =>
    cases e with
    | false => exact absurd (hu.symm.trans hp.1.up) Bool.false_ne_true
    | true => rfl
  | headDone e =>
    cases e with
    | false => exact absurd (hu.symm.trans hp.1) Bool.false_ne_true
    | true => rfl

/-- A block that recovery does not hold can be read: a buffer is free. -/
theorem bread (h : Recovering A s p dur) (hl : p.held.length < NBUF)
    (hb : ∀ j ∈ p.held, (s.cache.buf j).blockno ≠ some b) :
    ∃ i c, s.cache.bread s.disk 0 b = .ok (i, c) ∧
      ∀ j, (c.buf j).busy ≠ none → j ∈ i :: p.held := by
  have hfree : ∃ j, j ∉ p.held := by
    by_contra hall
    have hsub : (Finset.univ : Finset BufId) ⊆ p.held.toFinset := fun j _ =>
      mem_toFinset.2 (not_not.1 fun hj => hall ⟨j, hj⟩)
    have h1 := Finset.card_le_card hsub
    have h2 := toFinset_card_le p.held
    rw [Finset.card_univ, Fintype.card_fin] at h1
    omega
  obtain ⟨j, hj⟩ := hfree
  have hclean : (s.cache.buf j).dirty = false := by
    by_contra hd
    obtain ⟨x, hx, -⟩ := h.inv.cache_noMod.dirty_pend j (by simpa using hd)
    rw [h.pend] at hx
    exact not_mem_nil hx
  have hnone : ∀ j, j ∉ p.held → (s.cache.buf j).busy = none := fun j hj =>
    not_not.1 (mt (h.free j) hj)
  obtain ⟨i, c, hc⟩ := Bcache.bread_ok (d := s.disk) (t := 0) h.inv.cache.wf
    (fun k hk => hnone k fun hm => hb k hm hk) ⟨j, hnone j hj, hclean⟩
  refine ⟨i, c, hc, fun k hk => ?_⟩
  by_cases he : k = i
  · exact mem_cons.2 (.inl he)
  · refine mem_cons_of_mem _ (h.free k ?_)
    rcases Bcache.bread_cases h.inv.cache.wf hc with ⟨-, -, rfl⟩ | ⟨-, -, -, rfl⟩ <;>
      rwa [Bcache.modify_buf_of_ne _ he] at hk

theorem brelse {c c' : Bcache} {l : List BufId} (hc : c.brelse i = .ok c')
    (hf : ∀ j, (c.buf j).busy ≠ none → j ∈ i :: l) : ∀ j, (c'.buf j).busy ≠ none → j ∈ l := by
  intro j hj
  unfold Bcache.brelse at hc
  split at hc
  · cases hc
  · obtain rfl := Except.ok.inj hc
    change ((c.modify i fun u => { u with busy := none }).buf j).busy ≠ none at hj
    by_cases he : j = i
    · subst he
      rw [Bcache.modify_buf_self] at hj
      exact absurd rfl hj
    · rw [Bcache.modify_buf_of_ne _ he] at hj
      exact (mem_cons.1 (hf j hj)).resolve_left he

theorem advance {s₀ : State} (h : Recovering A s p dur)
    (hs : s.commitStep A 0 p = .ok (s₀.setPc 0 (.commit p'))) (hu : s₀.up = false)
    (hf : ∀ j, (s₀.cache.buf j).busy ≠ none → j ∈ p'.held) (hr : p'.rank < p.rank) :
    ∃ s', s.next A 0 = .ok s' ∧ ∃ p', p'.rank < p.rank ∧ Recovering A s' p' dur := by
  have hn : s.next A 0 = .ok (s₀.setPc 0 (.commit p')) := by
    unfold State.next
    rw [h.inv.phase.2.2.2.1]
    exact hs
  obtain ⟨q, ph', -, -, hi⟩ := h.inv.next hn
  rw [ite_self] at hi
  have hpc : (s₀.setPc 0 (.commit p')).pc 0 = .commit p' := by
    unfold State.setPc
    dsimp only
    rw [update_self]
  obtain rfl := hi.phase_eq hpc
  exact ⟨_, hn, p', hr, hi, hu, hf⟩

/-- The points of the copying loop. -/
theorem step_loop {dir : Dir} {k : Nat} {j : BufId}
    (hcase : p = .top dir k ∨ p = .gotLog dir k i ∨ p = .gotBoth dir k i j ∨ p = .copied dir k i j)
    (h : Recovering A s p dur) :
    ∃ s', s.next A 0 = .ok s' ∧ ∃ p', p'.rank < p.rank ∧ Recovering A s' p' dur := by
  have hp := h.inv.phase.1
  cases dir with
  | toLog =>
    rcases hcase with rfl | rfl | rfl | rfl <;>
      exact absurd (h.down.symm.trans hp.1.up) Bool.false_ne_true
  | toHome =>
    rcases hcase with rfl | rfl | rfl | rfl
    · by_cases hk : k < s.lh.length
      · obtain ⟨i, c, hc, hf⟩ := h.bread (b := A.start + k + 1) (by simp [Pt.held])
          (by simp [Pt.held])
        have hs : s.commitStep A 0 (.top .toHome k) =
            .ok ({ s with cache := c }.setPc 0 (.commit (.gotLog .toHome k i))) := by
          simp only [State.commitStep, if_pos hk, hc]
          rfl
        exact h.advance hs h.down hf (by simp [Pt.rank])
      · have hs : s.commitStep A 0 (.top .toHome k) =
            .ok ({ s with lh := [] }.setPc 0 (.commit (.head true))) := by
          simp only [State.commitStep, if_neg hk]
        exact h.advance hs h.down h.free (by simp [Pt.rank])
    · obtain ⟨hl, hn, hk, hi⟩ := hp
      have hb : s.lh[k]? = some s.lh[k] := getElem?_eq_getElem hk
      have hhome := h.inv.home _ (getElem_mem hk)
      obtain ⟨j, c, hc, hf⟩ := h.bread (b := s.lh[k]) (show 1 < NBUF by decide) (by
        intro j hj
        obtain rfl := mem_singleton.1 hj
        rw [hi.1]
        exact fun he => hhome.ne_copy (Nat.lt_of_le_of_lt hk hn) (Option.some.inj he).symm)
      have hs : s.commitStep A 0 (.gotLog .toHome k i) =
          .ok ({ s with cache := c }.setPc 0 (.commit (.gotBoth .toHome k i j))) := by
        simp only [State.commitStep, hb, hc]
        rfl
      exact h.advance hs h.down (fun u hu => by simpa [Pt.held, or_comm] using hf u hu)
        (by simp [Pt.rank])
    · obtain ⟨hl, hn, hi, b, hb, hj⟩ := hp
      obtain ⟨⟨d, c⟩, hc⟩ := Bcache.bwrite_ok (d := s.disk) (t := 0) (b := b)
        (c := s.cache.modify j fun u => { u with data := (s.cache.buf i).data }) (i := j)
        (by rw [Bcache.modify_buf_self]; exact hj.2) (by rw [Bcache.modify_buf_self]; exact hj.1)
      have hs : s.commitStep A 0 (.gotBoth .toHome k i j) =
          .ok ({ s with disk := d, cache := c }.setPc 0 (.commit (.copied .toHome k i j))) := by
        simp only [State.commitStep, hc]
        rfl
      obtain ⟨-, -, hkeep, -, hbusy⟩ :=
        h.inv.cache_noMod.bwrite hj.1 (h.inv.mem_loopPend_succ hb) hc
      refine h.advance hs h.down (fun u hu => h.free u ?_) (by simp [Pt.rank])
      change (c.buf u).busy ≠ none at hu
      by_cases he : u = j
      · subst he
        rwa [hbusy] at hu
      · rwa [hkeep u he] at hu
    · obtain ⟨hl, hn, hi, b, hb, hj⟩ := hp
      have hk := (List.getElem?_eq_some_iff.1 hb).1
      have hij : j ≠ i := by
        rintro rfl
        exact (h.inv.home b (mem_of_getElem? hb)).ne_copy (Nat.lt_of_le_of_lt hk hn)
          (Option.some.inj (hj.1.symm.trans hi.1))
      obtain ⟨c, hc⟩ := Bcache.brelse_ok (c := s.cache) (i := i) (by rw [hi.2]; simp)
      have hkeep := (h.inv.cache_noMod.brelse hc).2.1
      obtain ⟨c', hc'⟩ := Bcache.brelse_ok (c := c) (i := j) (by rw [hkeep j hij, hj.2]; simp)
      have hs : s.commitStep A 0 (.copied .toHome k i j) =
          .ok ({ s with cache := c' }.setPc 0 (.commit (.top .toHome (k + 1)))) := by
        simp only [State.commitStep, hc, hc', bind, Except.bind]
        rfl
      refine h.advance hs h.down (brelse hc' (brelse hc h.free)) ?_
      have hlt : k < NBUF := Nat.lt_trans hk hn
      simp only [Pt.rank]
      omega

theorem step (h : Recovering A s p dur) (hne : p ≠ .finish) :
    ∃ s', s.next A 0 = .ok s' ∧ ∃ p', p'.rank < p.rank ∧ Recovering A s' p' dur := by
  have hp := h.inv.phase.1
  cases p with
  | finish => exact absurd rfl hne
  | top dir k => exact h.step_loop (i := 0) (j := 0) (.inl rfl)
  | gotLog dir k i => exact h.step_loop (j := 0) (.inr (.inl rfl))
  | gotBoth dir k i j => exact h.step_loop (.inr (.inr (.inl rfl)))
  | copied dir k i j => exact h.step_loop (.inr (.inr (.inr rfl)))
  | readHead =>
    obtain ⟨i, c, hc, hf⟩ := h.bread (b := A.start) (by decide) (by simp [Pt.held])
    have hs : s.commitStep A 0 .readHead =
        .ok ({ s with cache := c }.setPc 0 (.commit (.readHeadGot i))) := by
      simp only [State.commitStep, hc]
      rfl
    exact h.advance hs h.down hf (by simp [Pt.rank])
  | readHeadGot i =>
    obtain ⟨c, hc⟩ := Bcache.brelse_ok (c := s.cache) (i := i) (by rw [hp.2.2.2]; simp)
    have hs : s.commitStep A 0 (.readHeadGot i) =
        .ok ({ s with cache := c, lh := (s.cache.buf i).data.header }.setPc 0
          (.commit (.top .toHome 0))) := by
      simp only [State.commitStep, hc]
      rfl
    exact h.advance hs h.down (brelse hc h.free) (by simp [Pt.rank])
  | head e =>
    obtain ⟨i, c, hc, hf⟩ := h.bread (b := A.start) (by simp [Pt.held]) (by simp [Pt.held])
    have hs : s.commitStep A 0 (.head e) =
        .ok ({ s with cache := c }.setPc 0 (.commit (.headGot e i))) := by
      simp only [State.commitStep, hc]
      rfl
    exact h.advance hs h.down hf (by simp [Pt.rank])
  | headGot e i =>
    have hi : s.Held 0 i A.start := by
      cases e with
      | false => exact hp.2.2
      | true => exact hp.2
    obtain ⟨⟨d, c⟩, hc⟩ := Bcache.bwrite_ok (d := s.disk) (t := 0) (b := A.start)
      (c := s.cache.modify i fun u => { u with data := u.data.putHeader s.lh }) (i := i)
      (by rw [Bcache.modify_buf_self]; exact hi.2) (by rw [Bcache.modify_buf_self]; exact hi.1)
    have hs : s.commitStep A 0 (.headGot e i) =
        .ok ({ s with disk := d, cache := c }.setPc 0 (.commit (.headDone e i))) := by
      simp only [State.commitStep, hc]
      rfl
    refine h.advance hs h.down (fun u hu => h.free u ?_) (by simp [Pt.rank])
    obtain ⟨-, -, -, rfl⟩ := Bcache.bwrite_cases hc
    dsimp only at hu
    by_cases he : u = i
    · subst he
      rwa [Bcache.modify_buf_self, Bcache.modify_buf_self] at hu
    · rwa [Bcache.modify_buf_of_ne _ he, Bcache.modify_buf_of_ne _ he] at hu
  | headDone e i =>
    cases e with
    | false => exact absurd (h.down.symm.trans hp.1) Bool.false_ne_true
    | true =>
      obtain ⟨c, hc⟩ := Bcache.brelse_ok (c := s.cache) (i := i) (by rw [hp.2.2.2]; simp)
      have hs : s.commitStep A 0 (.headDone true i) =
          .ok ({ s with cache := c }.setPc 0 (.commit .finish)) := by
        simp only [State.commitStep, hc]
        rfl
      exact h.advance hs h.down (brelse hc h.free) (by simp [Pt.rank])

/-- Left alone, recovery ends with the home blocks as they should be. -/
theorem ends (h : Recovering A s p dur) :
    ∃ m s', s.run A (List.replicate m (.next 0)) = .ok s' ∧ s'.up = true ∧
      ∀ b, A.Home b → s'.disk b = dur b := by
  induction hr : p.rank using Nat.strongRecOn generalizing s p with
  | ind r ih =>
    by_cases hf : p = .finish
    · subst hf
      refine ⟨1, { s with committing := false, up := true }.setPc 0 .user, ?_, rfl,
        h.inv.phase.1.1.durable⟩
      have hs : s.next A 0 = .ok ({ s with committing := false, up := true }.setPc 0 .user) := by
        unfold State.next
        rw [h.inv.phase.2.2.2.1]
        rfl
      unfold State.run
      rw [replicate_one, foldlM_cons]
      simp only [State.exec, hs]
      rfl
    · obtain ⟨s', hs, p', hlt, h'⟩ := h.step hf
      obtain ⟨m, s'', hrun, hup⟩ := ih p'.rank (hr ▸ hlt) h' rfl
      refine ⟨m + 1, s'', ?_, hup⟩
      unfold State.run at hrun ⊢
      rw [replicate_succ, foldlM_cons]
      simp only [State.exec, hs]
      exact hrun

end Recovering

theorem Inv.recovers {ph : Phase} {mem : Disk} (h : Inv A s ph dur mem) :
    Recovering A (.boot s.disk) .readHead dur :=
  ⟨.boot h.disk, rfl, fun _ hj => absurd rfl hj⟩

/-! ## Writes to home blocks -/

theorem exec_disk {a : Act} (hs : s.exec A a = .ok s') (ha : ∀ t, a ≠ .next t) :
    s'.disk = s.disk := by
  cases a with
  | next t => exact absurd rfl (ha t)
  | crash => cases hs; rfl
  | bread t b | brelse t i =>
    simp only [State.exec, State.bread, State.brelse] at hs
    split at hs
    · obtain ⟨x, -, hs⟩ := bind_ok hs
      cases hs
      rfl
    · cases hs
  | beginOp t | store t i v | logCheck t | logAppend t | endOp t =>
    simp only [State.exec, State.beginOp, State.store, State.logCheck, State.logAppend,
      State.endOp] at hs
    repeat' split at hs
    all_goals cases hs <;> rfl

/-- Only `install_trans` writes home blocks, and only those that the header on the disk names. -/
theorem Inv.home_write {ph : Phase} {mem : Disk} {a : Act} (h : Inv A s ph dur mem)
    (hs : s.exec A a = .ok s') (hb : A.Home b) (hne : s'.disk b ≠ s.disk b) :
    b ∈ (s.disk A.start).header ∧ s'.disk b = dur b := by
  by_cases ha : ∀ t, a ≠ .next t
  · exact absurd (congrFun (exec_disk hs ha) b) hne
  · obtain ⟨t, ht⟩ := not_forall.1 ha
    obtain rfl := not_not.1 ht
    replace hs : s.next A t = .ok s' := hs
    obtain ⟨p, ph', rfl, hpc, -⟩ := h.next hs
    replace hs : s.commitStep A t p = .ok s' := by simpa only [State.next, hpc] using hs
    have hp := h.phase.1
    -- a write of another block leaves this one alone
    have other : ∀ {x v}, ¬ A.Home x → s'.disk = update s.disk x v → False := by
      intro x v hx hd
      have hbx : b ≠ x := by
        rintro rfl
        exact hx hb
      exact hne (by rw [hd, update_of_ne hbx])
    rcases (commitStep_cases hs).2 with hd | ⟨e, i, rfl⟩ | ⟨dir, k, i, j, rfl⟩
    · exact absurd (congrFun hd b) hne
    · have hi : s.Held t i A.start := by
        cases e with
        | false => exact hp.2.2
        | true => exact hp.2
      obtain ⟨⟨d, c⟩, hc, hs⟩ := bind_ok hs
      cases hs
      obtain ⟨x, hx, hd, -⟩ := Bcache.bwrite_cases hc
      rw [Bcache.modify_buf_self] at hx
      obtain rfl := Option.some.inj (hi.1.symm.trans hx)
      exact (other A.not_home_start hd).elim
    · obtain ⟨hl, hn, hi, x, hx, hj⟩ := hp
      have hk := (List.getElem?_eq_some_iff.1 hx).1
      have hcopy := A.not_home_copy (Nat.lt_of_le_of_lt hk hn)
      cases dir with
      | toLog =>
        obtain ⟨⟨d, c⟩, hc, hs⟩ := bind_ok hs
        cases hs
        obtain ⟨y, hy, hd, -⟩ := Bcache.bwrite_cases hc
        rw [Bcache.modify_buf_self] at hy
        obtain rfl := Option.some.inj (hi.1.symm.trans hy)
        exact (other hcopy hd).elim
      | toHome =>
        obtain ⟨⟨d, c⟩, hc, hs⟩ := bind_ok hs
        cases hs
        obtain ⟨-, rfl, -⟩ := h.cache_noMod.bwrite hj.1 (h.mem_loopPend_succ hx) hc
        change update s.disk x _ b ≠ _ at hne
        obtain rfl : b = x := by
          by_contra he
          exact hne (update_of_ne he ..)
        refine ⟨hl.header.symm ▸ mem_of_getElem? hx, ?_⟩
        change update s.disk b _ b = _
        rw [update_self, h.cache_noMod.data_of_notMem hi.1 (h.notMem_pend hcopy) id]
        exact h.disk.copies k b (hl.header.symm ▸ hx)

end

/-! ## The theorem -/

/-- In every state of every run, with crashes at any point.  While no transaction commits, and so
when `recover_from_log` returns, the home blocks are as all the operations of the committed
transactions, and no other, made them.  A home block is only written while the header on the
disk names it, with those contents.  And after a crash in this state recovery, left alone, does
return, with those contents. -/
theorem crash_atomic (A : Area) {d₀ : Disk} (h0 : (d₀ A.start).header = []) {s : State} {g : Ghost}
    (h : (histories A d₀).Reach (s, g)) :
    (s.up = true → s.committing = false →
      ∀ b, A.Home b → s.disk b = g.hist.durable d₀ b) ∧
    (∀ a s', s.exec A a = .ok s' → ∀ b, A.Home b → s'.disk b ≠ s.disk b →
      b ∈ (s.disk A.start).header ∧ s'.disk b = g.hist.durable d₀ b) ∧
    ∃ m s', s.run A (.crash :: List.replicate m (.next 0)) = .ok s' ∧ s'.up = true ∧
      ∀ b, A.Home b → s'.disk b = g.hist.durable d₀ b := by
  obtain ⟨ph, hi, -⟩ := reach_inv h0 h
  refine ⟨fun hu hc b hb => ?_, fun a s' hs b hb hne => hi.home_write hs hb hne, ?_⟩
  · obtain rfl : ph = none := by
      cases ph with
      | none => rfl
      | some tp =>
        have := hi.phase.2.1
        rw [hu, hc] at this
        cases this
    exact hi.disk.rest b hb (by rw [hi.phase.1.header]; exact not_mem_nil)
  · obtain ⟨m, s', hrun, hup⟩ := hi.recovers.ends
    exact ⟨m, s', hrun, hup⟩

/-- Operation 0 logs block 40; the machine loses power right after the header of its transaction
is written, when block 40 is still as before. -/
theorem crash_atomic_committed : ∃ s g, (histories .mkfs fun _ _ => 0).Reach (s, g) ∧
    s.disk 40 0 = 0 ∧ g.hist.done = [0] ∧
    ∃ m s', s.run .mkfs (.crash :: List.replicate m (.next 0)) = .ok s' ∧ s'.up = true ∧
      s'.disk 40 0 = 7 := by
  obtain ⟨⟨s, g⟩, hr, hP⟩ := exists_run .mkfs (fun _ _ => 0) (fun _ _ => True)
    (List.replicate 7 (.next 0) ++
      [.beginOp 1, .bread 1 40, .store 1 1 fun _ => 7, .logCheck 1, .logAppend 1, .brelse 1 1,
        .endOp 1] ++ List.replicate 7 (.next 1))
    (P := fun x => decide (x.1.disk 40 0 = 0 ∧ x.2.hist.done = [0] ∧
      x.2.hist.durable (fun _ _ => 0) 40 0 = 7)) (by decide +kernel)
  obtain ⟨h1, h2, h3⟩ := of_decide_eq_true hP
  obtain ⟨-, -, m, s', hrun, hup, hd⟩ := crash_atomic .mkfs (by decide) hr.of_restrict
  exact ⟨s, g, hr.of_restrict, h1, h2, m, s', hrun, hup, by rw [hd 40 (by decide), h3]⟩

section
variable {A : Area} {d₀ : Disk} {s s' : State} {g : Ghost} {t : Slot}
  (h0 : (d₀ A.start).header = []) (h : (histories A d₀).Reach (s, g))
include h0 h

/-- In every interleaving, with crashes, an operation that reads a block is given a buffer with what
all operations so far, committed or not, have logged. -/
theorem op_reads_current {b : Nat} (ht : s.pc t = .op) (hb : A.Home b)
    (hs : s.exec A (.bread t b) = .ok s') :
    ∃ i, s'.Held t i b ∧ (s'.cache.buf i).data = g.hist.view d₀ b := by
  obtain ⟨ph, hi, -⟩ := reach_inv h0 h
  obtain rfl := hi.phase_none (t := t) (by rw [ht]; rfl)
  have hi' := hi.bread hs
  change (if _ then _ else _) = _ at hs
  split at hs
  · obtain ⟨⟨i, c⟩, hc, hs⟩ := bind_ok hs
    cases hs
    obtain ⟨hcache, hblock, hbusy, -⟩ := hi.cache.bread hc
    refine ⟨i, ⟨hblock, hbusy⟩, ?_⟩
    -- nobody else has changed the buffer and not logged it
    have hmod : ¬ s.Mod i := by
      rintro ⟨u, hu⟩
      obtain ⟨x, -, hh⟩ := hi'.mods u i hu
      obtain rfl := Option.some.inj (hbusy.symm.trans hh.2)
      rcases hu with hu | hu <;> cases ht.symm.trans hu
    by_cases hl : b ∈ s.lh
    · exact hcache.data_of_pend hblock hl hmod
    · exact (hcache.data_of_notMem hblock hl hmod).trans (hi.phase.1.rest b hb hl)
  · cases hs

end

/-- The first operation after the boot. -/
theorem op_reads_current_first : ∃ x s' i, (histories .mkfs fun _ _ => 0).Reach x ∧
    x.1.exec .mkfs (.bread 1 40) = .ok s' ∧ s'.Held 1 i 40 := by
  obtain ⟨x, hr, hP⟩ := exists_run .mkfs (fun _ _ => 0) (fun _ _ => True)
    (List.replicate 7 (.next 0) ++ [.beginOp 1])
    (P := fun x => (x.1.exec .mkfs (.bread 1 40)).toOption.any fun _ => x.1.pc 1 = .op)
    (by decide +kernel)
  obtain ⟨s', hs, ht⟩ := exists_ok hP
  obtain ⟨i, hi, -⟩ :=
    op_reads_current (by decide) hr.of_restrict (of_decide_eq_true ht) (by decide) hs
  exact ⟨x, s', i, hr.of_restrict, hs, hi⟩

end Xv6.Log
