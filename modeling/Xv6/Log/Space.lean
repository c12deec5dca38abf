import Xv6.Log.History

/-!
# Log space

`begin_op` keeps `MAXOPBLOCKS` entries of `log.lh.block` for every operation that
it admits, and that is enough for the `LOGSIZE` entries of the array.  But `log_write`
tests against `log.size - 1`, and `mkfs` gives the log `LOGSIZE` blocks with the
header among them: the last entry that was kept cannot be used.
-/

namespace Xv6.Log

open Function List

/-- How many different blocks the operation of process `t` has logged. -/
def Ghost.used (g : Ghost) (t : Slot) : Nat := (g.hist.touchedBy (g.opOf t)).toFinset.card

/-- The block that process `t` calls `log_write` for. -/
def State.storing (s : State) (t : Slot) : Option Nat :=
  match s.pc t with
  | .stored i => (s.cache.buf i).blockno
  | _ => none

/-- A caller of `log_write` has then logged at most `MAXOPBLOCKS` different blocks. -/
def opLimit (x : State × Ghost) : Act → Prop
  | .logCheck t => ∀ b ∈ x.1.storing t,
      (insert b (x.2.hist.touchedBy (x.2.opOf t)).toFinset).card ≤ MAXOPBLOCKS
  | _ => True

instance (x : State × Ghost) (a : Act) : Decidable (opLimit x a) := by
  cases a <;> dsimp only [opLimit] <;> infer_instance

/-- The runs on a file system made by `mkfs` whose operations keep to their limit. -/
def limited (d₀ : Disk) : System (State × Ghost) Act := (histories .mkfs d₀).restrict opLimit

/-- What `begin_op` has kept for process `t`. -/
def kept (s : State) (g : Ghost) (t : Slot) : Nat :=
  if (s.pc t).inOp then MAXOPBLOCKS - g.used t else 0

structure SpaceOk (s : State) (g : Ghost) : Prop where
  room : s.lh.length + ∑ t, kept s g t ≤ LOGSIZE
  inj : ∀ t u, (s.pc t).inOp = true → (s.pc u).inOp = true → g.opOf t = g.opOf u → t = u
  checked : ∀ t i b, s.pc t = .checked i → (s.cache.buf i).blockno = some b →
    (insert b (g.hist.touchedBy (g.opOf t)).toFinset).card ≤ MAXOPBLOCKS

variable {A : Area}

section
variable {s s' : State} {g g' : Ghost} {t : Slot} {ph : Phase} {dur mem : Disk}

/-- The sum moves with the one term that changes. -/
theorem sum_kept (h : ∀ u, u ≠ t → kept s' g' u = kept s g u) :
    ∑ u, kept s' g' u + kept s g t = ∑ u, kept s g u + kept s' g' t := by
  have h1 := Finset.add_sum_erase Finset.univ (kept s' g') (Finset.mem_univ t)
  have h2 := Finset.add_sum_erase Finset.univ (kept s g) (Finset.mem_univ t)
  have h3 : ∑ u ∈ Finset.univ.erase t, kept s' g' u = ∑ u ∈ Finset.univ.erase t, kept s g u :=
    Finset.sum_congr rfl fun u hu => h u (Finset.ne_of_mem_erase hu)
  omega

theorem sum_kept_zero (h : ∀ u, (s.pc u).inOp = false) : ∑ u, kept s g u = 0 :=
  Finset.sum_eq_zero fun u _ => by simp [kept, h u]

theorem sum_kept_le (s : State) (g : Ghost) : ∑ u, kept s g u ≤ s.ops * MAXOPBLOCKS := by
  have h : ∀ u, kept s g u ≤ if (s.pc u).inOp = true then MAXOPBLOCKS else 0 := by
    intro u
    unfold kept
    split
    · exact Nat.sub_le _ _
    · exact Nat.le_refl _
  refine (Finset.sum_le_sum fun u _ => h u).trans_eq ?_
  rw [← Finset.sum_filter, Finset.sum_const, Nat.nsmul_eq_mul]
  rfl

/-- Nobody but `t` changes, and `t` does not come to have more kept for it. -/
theorem SpaceOk.room_of_le (h : SpaceOk s g) (hl : s'.lh.length ≤ s.lh.length)
    (hu : ∀ u, u ≠ t → kept s' g' u = kept s g u) (ht : kept s' g' t ≤ kept s g t) :
    s'.lh.length + ∑ u, kept s' g' u ≤ LOGSIZE := by
  have h1 := sum_kept hu
  have h2 := h.room
  omega

/-! ## Every step keeps the room -/

/-- The buffer of a process in `log_write` stays with its block while others take steps. -/
theorem exec_blockno {a : Act} {i : BufId} (hi : Inv A s ph dur mem)
    (ht : s.pc t = .checked i) (hs : s.exec A a = .ok s') (hc : a ≠ .crash) :
    (s'.cache.buf i).blockno = (s.cache.buf i).blockno := by
  obtain ⟨b, -, hb, hbusy⟩ := hi.mods t i (.inr ht)
  have keep : ∀ (j : BufId) (f : Buf → Buf), (∀ u, (f u).blockno = u.blockno) →
      ((s.cache.modify j f).buf i).blockno = (s.cache.buf i).blockno := by
    intro j f hf
    by_cases he : i = j
    · subst he
      rw [Bcache.modify_buf_self, hf]
    · rw [Bcache.modify_buf_of_ne f he]
  cases a with
  | crash => exact absurd rfl hc
  | next u =>
    obtain ⟨p, ph', rfl, -⟩ := hi.next hs
    have := hi.noOps t
    rw [ht] at this
    cases this
  | bread u x =>
    simp only [State.exec, State.bread] at hs
    split at hs
    · obtain ⟨⟨j, c⟩, hb, hs⟩ := bind_ok hs
      cases hs
      rw [(hi.cache.bread hb).2.2.2 i (by rw [hbusy]; exact Option.some_ne_none _)]
    · cases hs
  | brelse u j =>
    simp only [State.exec, State.brelse] at hs
    split at hs
    · next hu =>
      obtain ⟨c, hb, hs⟩ := bind_ok hs
      cases hs
      have hij : i ≠ j := by
        rintro rfl
        obtain rfl := Option.some.inj (hbusy.symm.trans hu.2)
        rw [ht] at hu
        rcases hu.1 with h | h <;> cases h
      rw [(hi.cache.brelse hb).2.1 i hij]
    · cases hs
  | store u j v =>
    simp only [State.exec, State.store] at hs
    split at hs
    · cases hs
      exact keep j (fun w => { w with data := v }) fun _ => rfl
    · cases hs
  | logAppend u =>
    simp only [State.exec, State.logAppend] at hs
    repeat' split at hs
    all_goals cases hs
    exact keep _ (fun w => { w with dirty := true }) fun _ => rfl
  | beginOp u | logCheck u | endOp u =>
    simp only [State.exec, State.beginOp, State.logCheck, State.endOp] at hs
    repeat' split at hs
    all_goals cases hs
    all_goals rfl

namespace SpaceOk

/-- Nobody is in an operation. -/
theorem of_noOps (hop : ∀ u, (s.pc u).inOp = false) (hl : s.lh.length ≤ LOGSIZE) : SpaceOk s g := by
  refine ⟨by rw [sum_kept_zero hop]; exact hl, fun t u ht => ?_, fun t i b ht => ?_⟩
  · rw [hop t] at ht
    cases ht
  · have := hop t
    rw [ht] at this
    cases this

/-- Process `t` changes its place within its operation, or leaves it. -/
theorem setPc {q : Pc} (h : SpaceOk s g) (hpc : s'.pc = update s.pc t q)
    (hin : q.inOp = true → (s.pc t).inOp = true) (hl : s'.lh = s.lh)
    (hq : ∀ i b, q = .checked i → (s'.cache.buf i).blockno = some b →
      (insert b (g.hist.touchedBy (g.opOf t)).toFinset).card ≤ MAXOPBLOCKS)
    (hb : ∀ u i, s.pc u = .checked i → (s'.cache.buf i).blockno = (s.cache.buf i).blockno) :
    SpaceOk s' g := by
  have hself : s'.pc t = q := by rw [hpc, update_self]
  have hother : ∀ u, u ≠ t → s'.pc u = s.pc u := fun u hu => by rw [hpc, update_of_ne hu]
  have hop : ∀ u, (s'.pc u).inOp = true → (s.pc u).inOp = true := by
    intro u hu
    by_cases he : u = t
    · subst he
      rw [hself] at hu
      exact hin hu
    · rwa [hother u he] at hu
  refine ⟨h.room_of_le (t := t) (hl ▸ Nat.le_refl _) (fun u hu => ?_) ?_, fun u v hu hv => ?_,
    fun u i b hu hbi => ?_⟩
  · unfold kept
    rw [hother u hu]
  · unfold kept
    rw [hself]
    split
    · next hq' => rw [if_pos (hin hq')]
    · exact Nat.zero_le _
  · exact h.inj u v (hop u hu) (hop v hv)
  · by_cases he : u = t
    · subst he
      exact hq i b (hself.symm.trans hu) hbi
    · rw [hother u he] at hu
      exact h.checked u i b hu (hb u i hu ▸ hbi)

theorem beginOp (h : SpaceOk s g) (hi : Inv A s ph dur mem) (hg : GhostOk s g)
    (hs : s.beginOp t = .ok s') : SpaceOk s' (Ghost.step s (.beginOp t) s' g) := by
  obtain ⟨ht, hpc, hl, hc, ho, hroom⟩ := beginOp_pc hs
  have hnew : ∀ u, u ≠ t → (s'.pc u).inOp = true → g.opOf u < g.next := by
    intro u hu hin
    rw [hpc, update_of_ne hu] at hin
    exact hg.cur_lt _ (hg.opOf u hin)
  refine ⟨?_, fun u v hu hv he => ?_, fun u i b hu hb => ?_⟩
  · have h1 := sum_kept_le s' (Ghost.step s (.beginOp t) s' g)
    rw [← (hi.beginOp hs).count, ho] at h1
    rw [hl]
    omega
  · change update g.opOf t g.next u = update g.opOf t g.next v at he
    by_cases hut : u = t <;> by_cases hvt : v = t
    · rw [hut, hvt]
    · subst hut
      rw [update_self, update_of_ne hvt] at he
      exact absurd he (Nat.ne_of_gt (hnew v hvt hv))
    · subst hvt
      rw [update_self, update_of_ne hut] at he
      exact absurd he (Nat.ne_of_lt (hnew u hut hu))
    · rw [update_of_ne hut, update_of_ne hvt] at he
      rw [hpc, update_of_ne hut] at hu
      rw [hpc, update_of_ne hvt] at hv
      exact h.inj u v hu hv he
  · have hut : u ≠ t := by
      rintro rfl
      rw [hpc, update_self] at hu
      cases hu
    rw [hpc, update_of_ne hut] at hu
    rw [hc] at hb
    change (insert b (g.hist.touchedBy (update g.opOf t g.next u)).toFinset).card ≤ _
    rw [update_of_ne hut]
    exact h.checked u i b hu hb

theorem logAppend (h : SpaceOk s g) (hi : Inv A s ph dur mem) (hg : GhostOk s g)
    (hs : s.logAppend t = .ok s') : SpaceOk s' (Ghost.step s (.logAppend t) s' g) := by
  obtain ⟨i, b, ht, hb, rfl, hl, -⟩ := hi.logAppend hs
  obtain ⟨-, -, hpc⟩ := logAppend_pc hs
  have hg' : Ghost.step s (.logAppend t) s' g =
      { g with hist := g.hist.write (g.opOf t) b (s.cache.buf i).data } := by
    simp only [Ghost.step, ht, hb]
  rw [hg']
  have hop : (s.pc t).inOp = true := by rw [ht]; rfl
  have hother : ∀ u, u ≠ t → s'.pc u = s.pc u := fun u hu => by rw [hpc, update_of_ne hu]
  have hin : ∀ u, (s'.pc u).inOp = true → (s.pc u).inOp = true := by
    intro u hu
    by_cases he : u = t
    · rw [he]
      exact hop
    · rwa [hother u he] at hu
  have htb : ∀ u, u ≠ t → (s.pc u).inOp = true →
      (g.hist.write (g.opOf t) b (s.cache.buf i).data).touchedBy (g.opOf u) =
        g.hist.touchedBy (g.opOf u) := fun u hu hop' =>
    Txn.Hist.touchedBy_write_of_ne (fun he => hu (h.inj u t hop' hop he.symm)) ..
  have hkept : ∀ u, u ≠ t →
      kept s' { g with hist := g.hist.write (g.opOf t) b (s.cache.buf i).data } u = kept s g u := by
    intro u hu
    unfold kept
    rw [hother u hu]
    split
    · next hop' => simp only [Ghost.used, htb u hu hop']
    · rfl
  refine ⟨?_, fun u v hu hv he => h.inj u v (hin u hu) (hin v hv) he, fun u j x hu hx => ?_⟩
  · have hlim := h.checked t i b ht hb
    have hused : (Ghost.used { g with hist := g.hist.write (g.opOf t) b (s.cache.buf i).data } t) =
        (insert b (g.hist.touchedBy (g.opOf t)).toFinset).card := by
      simp only [Ghost.used]
      rw [Txn.Hist.touchedBy_write, toFinset_append]
      congr 1
      ext x
      simp
    have hk : kept s g t = MAXOPBLOCKS - g.used t := by unfold kept; rw [if_pos hop]
    have hk' : kept s' { g with hist := g.hist.write (g.opOf t) b (s.cache.buf i).data } t =
        MAXOPBLOCKS - (insert b (g.hist.touchedBy (g.opOf t)).toFinset).card := by
      unfold kept
      rw [hpc, update_self, hused]
      rfl
    have hsum := sum_kept hkept
    have hroom := h.room
    rw [hk, hk'] at hsum
    rw [hl]
    unfold State.absorb
    split
    · have hle : g.used t ≤ (insert b (g.hist.touchedBy (g.opOf t)).toFinset).card :=
        Finset.card_le_card (Finset.subset_insert ..)
      omega
    · next hnew =>
      have hnot : b ∉ (g.hist.touchedBy (g.opOf t)).toFinset := by
        intro hm
        refine hnew ((hg.touched (open_of_none hi) b).2 ?_)
        obtain ⟨w, hw, rfl⟩ := mem_map.1 (mem_toFinset.1 hm)
        obtain ⟨hw, ho⟩ := mem_filter.1 hw
        refine mem_map.2 ⟨w, mem_filter.2 ⟨hw, ?_⟩, rfl⟩
        have ho : w.op = g.opOf t := by simpa using ho
        simpa [ho] using hg.opOf t hop
      rw [Finset.card_insert_of_notMem hnot] at hsum hlim
      have : g.used t = (g.hist.touchedBy (g.opOf t)).toFinset.card := rfl
      rw [length_append, length_singleton]
      omega
  · have hut : u ≠ t := by
      rintro rfl
      rw [hpc, update_self] at hu
      cases hu
    rw [hother u hut] at hu
    rw [exec_blockno hi hu (a := .logAppend t) hs (by simp)] at hx
    change (insert x (Txn.Hist.touchedBy _ (g.opOf u)).toFinset).card ≤ _
    rw [htb u hut (by rw [hu]; rfl)]
    exact h.checked u j x hu hx

end SpaceOk

end

theorem logCheck_cache {s s' : State} {t : Slot} (hs : s.logCheck A t = .ok s') :
    s'.cache = s.cache := by
  unfold State.logCheck at hs
  repeat' split at hs
  all_goals cases hs
  rfl

theorem reach_space {d₀ : Disk} (h0 : (d₀ Area.mkfs.start).header = []) {x : State × Ghost}
    (h : (limited d₀).Reach x) : SpaceOk x.1 x.2 := by
  induction h with
  | @init x hx =>
    obtain ⟨s, g⟩ := x
    obtain ⟨rfl, rfl⟩ := hx
    refine .of_noOps (fun u => ?_) (Nat.zero_le _)
    rw [boot_pc]
    split <;> rfl
  | @step x a y hr hstep ih =>
    obtain ⟨s, g⟩ := x
    obtain ⟨s', g'⟩ := y
    obtain ⟨hlim, hs, hgs⟩ := hstep
    obtain ⟨ph, hi, hg⟩ := reach_inv h0 hr.of_restrict
    dsimp only at hs hgs hi hg ih ⊢
    subst hgs
    have hb : a ≠ .crash → ∀ u i, s.pc u = .checked i →
        (s'.cache.buf i).blockno = (s.cache.buf i).blockno :=
      fun hc u i hu => exec_blockno hi hu hs hc
    cases a with
    | beginOp t => exact ih.beginOp hi hg hs
    | logAppend t => exact ih.logAppend hi hg hs
    | bread t b =>
      obtain ⟨hpc, hl⟩ := bread_pc hs
      refine ih.setPc (t := t) (q := s.pc t) (by rw [hpc, update_eq_self]) id hl
        (fun i b hq hbi => ih.checked t i b hq ?_) (hb (by simp))
      rwa [hb (by simp) t i hq] at hbi
    | brelse t j =>
      obtain ⟨hpc, hl⟩ := brelse_pc hs
      refine ih.setPc (t := t) (q := s.pc t) (by rw [hpc, update_eq_self]) id hl
        (fun i b hq hbi => ih.checked t i b hq ?_) (hb (by simp))
      rwa [hb (by simp) t i hq] at hbi
    | store t i v =>
      obtain ⟨ht, hpc, hl⟩ := store_pc hs
      exact ih.setPc hpc (by simp [ht, Pc.inOp]) hl (by simp) (hb (by simp))
    | logCheck t =>
      obtain ⟨i, ht, hpc, hl⟩ := logCheck_pc hs
      refine ih.setPc hpc (by simp [ht, Pc.inOp]) hl (fun j b hj hbj => hlim b ?_) (hb (by simp))
      cases hj
      simp only [State.storing, ht]
      rwa [logCheck_cache hs] at hbj
    | endOp t =>
      obtain ⟨ht, hl, q, hpc, hq⟩ := endOp_pc hs
      refine ih.setPc hpc (by simp [ht, Pc.inOp]) hl (fun j b hj => ?_) (hb (by simp))
      subst hj
      simp at hq
    | next t =>
      obtain ⟨p, ph', rfl, ht, hi'⟩ := hi.next hs
      have hstep : s.commitStep .mkfs t p = .ok s' := by
        have hs : s.next .mkfs t = .ok s' := hs
        simpa only [State.next, ht] using hs
      have hcases := (commitStep_cases hstep).1
      refine .of_noOps (fun u => ?_) ?_
      · by_contra hu
        obtain rfl := hi'.phase_none (t := u) (by simpa using hu)
        rcases hcases with ⟨-, hpc, -⟩ | ⟨p', -, hpc, -⟩
        · rw [hpc] at hu
          by_cases he : u = t
          · subst he
            rw [update_self] at hu
            exact hu rfl
          · rw [update_of_ne he] at hu
            exact hu (hi.noOps u)
        · exact hi'.phase.2.2 t p' (by rw [hpc, update_self])
      · have hsame : s'.lh = s.lh → s'.lh.length ≤ LOGSIZE := by
          intro hl
          have := ih.room
          rw [hl]
          omega
        rcases hcases with ⟨-, -, hl⟩ | ⟨p', -, hpc, -, hl | ⟨-, hl | rfl⟩⟩
        · exact hsame hl
        · exact hsame hl
        · rw [hl]
          exact Nat.zero_le _
        · obtain rfl := hi'.phase_eq (t := t) (p := .top .toHome 0)
            (by rw [hpc, update_self])
          have hl : Installing .mkfs s' _ _ 0 := hi'.phase.1.1
          rw [← hl.header]
          exact Nat.le_of_lt hi'.disk.short
    | crash =>
      cases hs
      refine .of_noOps (fun u => ?_) (Nat.zero_le _)
      rw [boot_pc]
      split <;> rfl

/-- While operations run, `log.lh.n` counts the different blocks that they have logged. -/
theorem lh_length {s : State} {g : Ghost} {dur mem : Disk} (hi : Inv A s none dur mem)
    (hg : GhostOk s g) : s.lh.length = g.hist.touched.toFinset.card := by
  rw [← toFinset_card_of_nodup hi.nodup]
  congr 1
  ext b
  rw [mem_toFinset, mem_toFinset]
  exact hg.touched (open_of_none hi) b

/-- In every run on a file system made by `mkfs` whose operations each log at most `MAXOPBLOCKS`
different blocks: the entries of `log.lh.block` differ, with what is kept for the running
operations they fit into the array, and a call of `log_write` panics exactly when the transaction
has logged `LOGSIZE - 1` different blocks before it. -/
theorem log_space {d₀ : Disk} (h0 : (d₀ Area.mkfs.start).header = []) {s : State} {g : Ghost}
    (h : (limited d₀).Reach (s, g)) :
    s.lh.Nodup ∧ s.lh.length + ∑ t, kept s g t ≤ LOGSIZE ∧
    ∀ t i, s.pc t = .stored i →
      (s.exec .mkfs (.logCheck t) = .error (.panics .tooBig) ↔
        LOGSIZE - 1 ≤ g.hist.touched.toFinset.card) := by
  obtain ⟨ph, hi, hg⟩ := reach_inv h0 h.of_restrict
  refine ⟨hi.nodup, (reach_space h0 h).room, fun t i ht => ?_⟩
  obtain rfl := hi.phase_none (t := t) (by rw [ht]; rfl)
  rw [← lh_length hi hg]
  have hsize : Area.mkfs.size = LOGSIZE := rfl
  simp only [State.exec, State.logCheck, ht, hsize]
  constructor
  · intro hp
    split at hp
    · next hc => omega
    · split at hp <;> cases hp
  · intro hn
    rw [if_pos (.inr hn)]

/-- The first `log_write` of a run goes through. -/
theorem log_space_first : ∃ x, (limited fun _ _ => 0).Reach x ∧ x.1.pc 1 = .stored 1 ∧
    x.1.exec .mkfs (.logCheck 1) ≠ .error (.panics .tooBig) := by
  obtain ⟨x, hr, hP⟩ := exists_run .mkfs (fun _ _ => 0) opLimit
    (List.replicate 7 (.next 0) ++ [.beginOp 1, .bread 1 40, .store 1 1 fun _ => 7])
    (P := fun x => decide (x.1.pc 1 = .stored 1 ∧ x.2.hist.touched.toFinset.card = 0))
    (by decide +kernel)
  obtain ⟨hpc, hcard⟩ := of_decide_eq_true hP
  refine ⟨x, hr, hpc, fun hp => ?_⟩
  have := ((log_space (by decide) hr).2.2 1 1 hpc).1 hp
  rw [hcard] at this
  exact absurd this (by decide)

/-- Three operations have logged 29 blocks, and the third calls `log_write` for its tenth. -/
theorem log_write_panics : ∃ x, (limited fun _ _ => 0).Reach x ∧ opLimit x (.logCheck 3) ∧
    x.1.exec .mkfs (.logCheck 3) = .error (.panics .tooBig) := by
  obtain ⟨x, hr, hP⟩ := exists_run .mkfs (fun _ _ => 0) opLimit
    (List.replicate 7 (.next 0) ++ [.beginOp 1, .beginOp 2, .beginOp 3] ++
      (List.finRange 29).flatMap (fun k =>
        let t : Slot := if k < 10 then 1 else if k < 20 then 2 else 3
        let i : BufId := k.succ
        [.bread t (100 + k), .store t i fun _ => 7, .logCheck t, .logAppend t, .brelse t i]) ++
      [.bread 3 129, .store 3 0 fun _ => 7])
    (P := fun x => decide (opLimit x (.logCheck 3)) &&
      match x.1.exec .mkfs (.logCheck 3) with
      | .error e => decide (e = .panics .tooBig)
      | .ok _ => false) (by decide +kernel)
  rw [Bool.and_eq_true, decide_eq_true_eq] at hP
  obtain ⟨hlim, hP⟩ := hP
  refine ⟨x, hr, hlim, ?_⟩
  split at hP
  · next e he => rw [he, of_decide_eq_true hP]
  · cases hP

end Xv6.Log
